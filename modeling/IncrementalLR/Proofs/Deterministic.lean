/-
**Parses of deterministic parsers.**

A parse of a deterministic parser follows a single stack: it never splits a stack, never runs into a
limit, and recovers only if its stack is stuck before the end.  So a strict parser accepts exactly
the documents that the run of a single stack accepts, and refuses the others where that run stops;
and both strict and lax parsers build the tree from the records of that run.

Main definitions:

* `Parse.IsSingle`, `Parse.Ahead` — parses that follow a single stack, and what they have left to
  do.

Main results:

* `Parse.actOn_single`, `Parse.drainF_single`, `Parse.step_single` — one action, all actions at a
  position, and one step;
* `Parse.finish_deterministic` — **a parse of a deterministic parser is the run of a single stack**;
* `Parse.finish_refuses_space` — an accepted run whose records the builder refuses.
-/

import IncrementalLR.Proofs.Progress
import IncrementalLR.Proofs.SingleRuns

set_option relaxedAutoImplicit false
set_option autoImplicit false

namespace IncrementalLR

namespace Parse

open ParseM

section Acting

variable {p : Parser} {d : Document} {r : Span} {q : Parse} {s e : Stack} {n : Nat}

/-- A parse that follows a single stack: nothing is taken over, it is not told to stop, and recovery
is off. -/
structure IsSingle (p : Parser) (d : Document) (r : Span) (q : Parse) : Prop where
  faithful : q.Faithful p d r
  start : q.env.start = r.start
  reuse : q.reuse = none
  reused : q.env.reused = #[]
  stoppedAt : q.stoppedAt = none
  recovering : q.recovering = 0

/-- Another parse, in which the stacks only were worked on since. -/
def WorksOnly (q q' : Parse) : Prop :=
  ∃ stream watch memo, q' = { q with env := { q.env with stream, watch }, memo }

theorem WorksOnly.trans {q q' q'' : Parse} (h : q.WorksOnly q') (h' : q'.WorksOnly q'') :
    q.WorksOnly q'' := by
  obtain ⟨_, _, _, rfl⟩ := h
  obtain ⟨stream, watch, memo, rfl⟩ := h'
  exact ⟨stream, watch, memo, rfl⟩

theorem ReadsOnly.worksOnly {q q' : Parse} (h : q.ReadsOnly q') : q.WorksOnly q' := by
  obtain ⟨stream, memo, rfl⟩ := h
  exact ⟨stream, q.env.watch, memo, rfl⟩

theorem IsSingle.works {q' : Parse} (h : q.IsSingle p d r) (hworks : q.WorksOnly q')
    (hfaithful : q'.Faithful p d r) : q'.IsSingle p d r := by
  obtain ⟨stream, watch, memo, rfl⟩ := hworks
  exact ⟨hfaithful, h.start, h.reuse, h.reused, h.stoppedAt, h.recovering⟩

/-- A stack that is not too deep is not cut. -/
theorem cutDepth_single (hp : p.IsDeterministic) (hq : q.parser = p) (hdepth : s.depth < maxSize) :
    Ensures (fun _ => False) (cutDepth s) q fun s' q' => s' = s ∧ q' = q := by
  unfold cutDepth
  rw [ensures_bind, ensures_ofParser, hq, hp.cutDepth]
  simp only [Nat.not_le.2 hdepth, if_false]
  exact ⟨rfl, rfl⟩

/-- One action of a single stack. -/
theorem actOn_single (hp : p.IsDeterministic) (hq : q.IsSingle p d r) (hlo : r.start ≤ s.pos)
    (hhi : s.pos ≤ r.stop) (hdepth : s.depth < maxSize) {moved : Bool} {s' : Stack}
    (hstep : p.singleStep d r s = .ok (moved, s')) :
    Ensures (fun _ => False) (actOn s true) q fun a q' =>
      a = ⟨moved, s', [], []⟩ ∧ q'.Faithful p d r ∧
        q.WorksOnly q' ∧ q'.env.watch.count ≤ q.env.watch.count + 1 := by
  have hparser := hq.faithful.parser
  unfold actOn
  rw [ensures_bind, ensures_get, hq.stoppedAt]
  simp only [Option.any_none, Bool.false_eq_true, if_false]
  rw [ensures_bind]
  unfold takeOver
  rw [ensures_bind, ensures_get, hq.reuse, ensures_pure, hparser]
  by_cases hdefault : 0 < (p.tables.row s.state).defaultReduce
  · unfold Parser.singleStep at hstep
    simp only [hdefault, if_true] at hstep ⊢
    obtain ⟨rfl, rfl⟩ := Prod.mk.inj (Except.ok.inj hstep)
    obtain ⟨heq, watch, henv, hcount⟩ := Stack.reduce_shared hp.tracker
      (p.tables.row s.state).defaultReduce s q.env (Parser.bareEnv d r) hq.start
    rw [ensures_bind, ensures_onEnv, ensures_pure, heq, henv]
    exact ⟨rfl, ⟨hparser, hq.faithful.stream, hq.faithful.kept⟩,
      ⟨q.env.stream, watch, q.memo, rfl⟩, hcount⟩
  · obtain ⟨offer, hoffer, hstart, hdone⟩ := Parser.offers_of_singleStep
      hq.faithful.stream.handsOut hp hhi hdefault hstep
    simp only [hdefault, if_false]
    refine (cutDepth_single hp hparser hdepth).bind ?_
    rintro s₁ q₁ ⟨hs, hq₁⟩
    rw [hs, hq₁]
    refine ((actionsFor_faithful hp.isTabular hq.faithful hlo hhi).weaken fun e he => by
      rw [hoffer] at he; cases he).bind ?_
    rintro found q' ⟨hfound, hq', hreads⟩
    obtain rfl := Except.ok.inj (hoffer.symm.trans hfound)
    rw [ensures_bind, ensures_get, ensures_onEnv]
    dsimp only at hstart hdone
    have hat : ((q'.memo.main.bind (·.start)).getD s.pos) = s.pos := by
      cases ht : q'.memo.main with
      | none => rfl
      | some t => simp [hstart t ht]
    have hworks := hreads.worksOnly
    have hshared : q'.env.start = (Parser.bareEnv d r).start := (hq.works hworks hq').start
    have hcount : q'.env.watch.count = q.env.watch.count := by
      obtain ⟨_, _, rfl⟩ := hreads
      rfl
    rw [hat]
    rcases hdone with ⟨hnone, heq⟩ | ⟨a, hone, heq⟩
    · obtain ⟨rfl, rfl⟩ := Prod.mk.inj heq
      rw [hnone]
      exact ⟨rfl, hq', hworks, by dsimp only [applyActions]; omega⟩
    · obtain ⟨rfl, rfl⟩ := Prod.mk.inj heq
      rw [hone]
      obtain ⟨heq, watch, henv, hle⟩ := Stack.apply_shared hp.tracker a.word a.term s.pos
        a.stop found.2 q'.env (Parser.bareEnv d r) hshared
      simp only [applyActions, List.isEmpty_nil, Bool.true_or, if_true, heq, henv]
      exact ⟨trivial, ⟨hq'.parser, hq'.stream, hq'.kept⟩,
        hworks.trans ⟨q'.env.stream, watch, q'.memo, rfl⟩, by omega⟩

/-- Forgetting which token the last actions were for. -/
theorem IsSingle.forget (hq : q.IsSingle p d r) :
    IsSingle p d r { q with memo := { q.memo with main := none } } :=
  ⟨⟨hq.faithful.parser, hq.faithful.stream, hq.faithful.kept⟩, hq.start, hq.reuse, hq.reused,
    hq.stoppedAt, hq.recovering⟩

theorem worksOnly_forget (q : Parse) :
    q.WorksOnly { q with memo := { q.memo with main := none } } :=
  ⟨q.env.stream, q.env.watch, _, rfl⟩

/-- A stack that is past the position stays as it is. -/
theorem drainF_past {pos fuel : Nat} (hpos : pos < s.pos) (hfuel : 2 ≤ fuel) (q : Parse) :
    Ensures (fun _ => False) (drainF pos fuel [s] {}) q fun dr q' =>
      dr = { ahead := [s] } ∧ q' = { q with memo := { q.memo with main := none } } := by
  obtain ⟨fuel, rfl⟩ := Nat.exists_eq_add_of_le' hfuel
  rw [drainF, ensures_bind, ensures_modify]
  simp only [hpos, if_true]
  rw [drainF]
  · exact ⟨rfl, rfl⟩
  · exact Nat.succ_ne_zero fuel

/-- A stack whose run to `e` had `n` actions left got past a position, and goes on from there: fewer
actions are left if the stack stood at the position, and frames and big reductions are no more than
actions were done. -/
def GoesOn (p : Parser) (d : Document) (r : Span) (pos n : Nat) (s e : Stack) (q : Parse)
    (dr : Drained) (q' : Parse) : Prop :=
  ∃ m s', dr = { ahead := [s'] } ∧ p.SingleRun d r m s' e ∧ pos < s'.pos ∧ s'.pos ≤ r.stop ∧
    m ≤ n ∧ (pos = s.pos → m < n) ∧ s'.frames.size + m ≤ s.frames.size + n ∧
    q'.env.watch.count + m ≤ q.env.watch.count + n

/-- A run has ended at a position. -/
def HasEnded (pos : Nat) (e : Stack) (dr : Drained) : Prop :=
  ∃ term stop, dr = { stuck := [⟨e, term, stop⟩] } ∧ e.pos = pos

/-- All actions of a single stack at a position: it gets past the position and goes on from there,
or its run has ended. -/
theorem drainF_single (hp : p.IsDeterministic) (hrun : p.SingleRun d r n s e) {pos : Nat}
    (hlo : r.start ≤ s.pos) (hhi : s.pos ≤ r.stop) (hpos : pos ≤ s.pos) {fuel : Nat}
    (hfuel : n + 2 ≤ fuel) (hdepth : 3 * (s.frames.size + n) < maxSize) {q : Parse}
    (hq : q.IsSingle p d r) :
    Ensures (fun _ => False) (drainF pos fuel [s] {}) q fun dr q' =>
      q'.Faithful p d r ∧ q.WorksOnly q' ∧
        (GoesOn p d r pos n s e q dr q' ∨ HasEnded pos e dr) := by
  have hd := hq.faithful.stream.handsOut
  induction hrun generalizing q fuel with
  | @stop s e hstuck =>
      rcases Nat.lt_or_eq_of_le hpos with hlt | hat
      · refine (drainF_past hlt hfuel q).mono ?_
        rintro _ _ ⟨rfl, rfl⟩
        exact ⟨hq.forget.faithful, worksOnly_forget q, Or.inl ⟨0, s, rfl, .stop hstuck, hlt, hhi,
          Nat.le_refl _, fun hat => absurd hat (Nat.ne_of_lt hlt), Nat.le_refl _, Nat.le_refl _⟩⟩
      · obtain ⟨fuel, rfl⟩ := Nat.exists_eq_add_of_le' hfuel
        rw [drainF, ensures_bind, ensures_modify]
        simp only [hat, Nat.lt_irrefl, if_false]
        refine (actOn_single hp hq.forget hlo hhi (by unfold Stack.depth; omega) hstuck).bind ?_
        rintro _ q' ⟨rfl, hq', hworks, -⟩
        simp only [Bool.false_eq_true, if_false, List.append_nil]
        rw [ensures_bind, ensures_get, drainF]
        · exact ⟨hq', (worksOnly_forget q).trans hworks,
            Or.inr ⟨_, _, rfl, (Parser.singleStep_bounds hd hp hhi hstuck).2.2.2 rfl⟩⟩
        · exact Nat.succ_ne_zero fuel
  | @step n s s' e hmoves hrun ih =>
      rcases Nat.lt_or_eq_of_le hpos with hlt | hat
      · refine (drainF_past hlt (by omega) q).mono ?_
        rintro _ _ ⟨rfl, rfl⟩
        exact ⟨hq.forget.faithful, worksOnly_forget q, Or.inl ⟨n + 1, s, rfl, .step hmoves hrun,
          hlt, hhi, Nat.le_refl _, fun hat => absurd hat (Nat.ne_of_lt hlt), Nat.le_refl _,
          Nat.le_refl _⟩⟩
      · subst hat
        obtain ⟨fuel, rfl⟩ := Nat.exists_eq_add_of_le' (Nat.le_trans (Nat.le_add_left 1 _) hfuel)
        obtain ⟨h₁, h₂, h₃, -⟩ := Parser.singleStep_bounds hd hp hhi hmoves
        rw [drainF, ensures_bind, ensures_modify]
        simp only [Nat.lt_irrefl, if_false]
        refine (actOn_single hp hq.forget hlo hhi (by unfold Stack.depth; omega) hmoves).bind ?_
        rintro _ q' ⟨rfl, hq', hworks, hcount⟩
        simp only [if_true]
        have hworks' := (worksOnly_forget q).trans hworks
        refine (ih (by omega) h₂ h₁ (show n + 2 ≤ fuel by omega) (by omega)
          (hq.works hworks' hq')).mono ?_
        rintro dr q'' ⟨hq'', hworks'', hgoes | hended⟩
        · obtain ⟨m, s'', rfl, hrun', hlt, hhi', hle, -, hframes, hcount'⟩ := hgoes
          dsimp only at hcount
          exact ⟨hq'', hworks'.trans hworks'', Or.inl ⟨m, s'', rfl, hrun', hlt, hhi', by omega,
            fun _ => by omega, by omega, by omega⟩⟩
        · exact ⟨hq'', hworks'.trans hworks'', Or.inr hended⟩

/-! ### Steps of a parse -/

/-- A parse that has `n` actions of its only stack left to do. -/
structure Ahead (p : Parser) (d : Document) (r : Span) (n : Nat) (s : Stack) (q : Parse) :
    Prop where
  single : q.IsSingle p d r
  live : q.live = [s]
  parsedPos : q.parsedPos = s.pos
  lo : r.start ≤ s.pos
  hi : s.pos ≤ r.stop
  limit : n + 2 ≤ q.env.limit
  depth : 3 * (s.frames.size + n) < maxSize
  count : q.env.watch.count + n ≤ maxSize
  result : q.result = none

/-- The only stack is not fast-forwarded. -/
theorem fastForward_single (hp : p.IsDeterministic) (hq : q.parser = p)
    (hcount : q.env.watch.count ≤ maxSize) :
    Ensures (fun _ => False) (fastForward [s]) q fun live q' => live = [s] ∧ q' = q := by
  unfold fastForward
  rw [ensures_bind, ensures_get, hq, hp.repetitions]
  simp only [Nat.not_lt.2 hcount, if_false]
  exact ⟨rfl, rfl⟩

/-- The tree of an accepted stack. -/
theorem toTree_single (hq : q.IsSingle p d r) (haccepts : p.accepts r e = true) :
    Ensures (fun f => p.verdict r q.epoch e = .error f) (toTree e) q fun t _ =>
      p.verdict r q.epoch e = .ok t := by
  unfold toTree Parser.verdict
  rw [ensures_bind, ensures_get, if_pos haccepts]
  dsimp only
  rw [hq.faithful.parser, hq.start, hq.reused, pos_close]
  cases hbuilt : Tree.buildFrom (planFor p #[] r.start e.pos) (e.close p).reader with
  | error err =>
      rw [planFor] at hbuilt
      rw [hbuilt]
      dsimp only
      rw [ensures_fail]
  | ok t =>
      rw [planFor] at hbuilt
      rw [hbuilt]
      dsimp only
      rw [ensures_bind, ensures_set, ensures_pure]

/-- A single stack that got past the position is the one that goes on. -/
theorem goOn_single {E : Failure → Prop} (pos : Nat) (hq : q.recovering = 0) :
    Ensures E (goOn pos { ahead := [s] }) q fun result q' =>
      result = none ∧ q' = { q with parsedPos := s.pos, live := [s] } := by
  have hselect : Ensures E (selectStacks pos [s]) q fun kept q' => kept = [s] ∧ q' = q := by
    unfold selectStacks
    rw [ensures_bind, ensures_get, hq]
    exact ⟨rfl, rfl⟩
  unfold goOn settle
  rw [ensures_bind, ensures_get]
  refine ensures_ite (fun hon => absurd hon (hq ▸ Nat.lt_irrefl 0)) (fun _ => ?_)
  refine hselect.bind ?_
  rintro kept q' ⟨hkept, hq'⟩
  rw [hkept, hq']
  exact ⟨rfl, rfl⟩

/-- Which stacks are kept does not matter. -/
theorem IsSingle.setLive (hq : q.IsSingle p d r) (parsedPos : Nat) (live : List Stack) :
    IsSingle p d r { q with parsedPos, live } :=
  ⟨⟨hq.faithful.parser, hq.faithful.stream, hq.faithful.kept⟩, hq.start, hq.reuse, hq.reused,
    hq.stoppedAt, hq.recovering⟩

/-- The only stack is finished if its end is accepted. -/
theorem bestStack_single (hq : q.IsSingle p d r) (e : Stack) :
    bestStack? q.isDone [e] = if p.accepts r e then some e else none := by
  have hdone : q.isDone e = p.accepts r e := by
    unfold isDone Parser.accepts
    rw [hq.faithful.stream.stop, hq.faithful.parser, hq.stoppedAt]
    simp
  simp [bestStack?, hdone]

/-- A strict parser refuses the document where its only stack ended. -/
theorem enterRecovery_single {Q : Unit → Parse → Prop} (hq : q.parser = p)
    (hstrict : p.strict = true) (haccepts : ¬ p.accepts r e = true) (epoch : Nat) :
    Ensures (fun f => p.verdict r epoch e = .error f) (enterRecovery e.pos) q Q := by
  unfold enterRecovery
  rw [ensures_bind, ensures_get, hq]
  simp only [hstrict, if_true]
  rw [ensures_fail, Parser.verdict, if_neg haccepts]

/-- A parse that went on has fewer actions left to do. -/
theorem Ahead.goesOn {dr : Drained} {q' : Parse} (hq : q.Ahead p d r n s)
    (hgoes : GoesOn p d r q.parsedPos n s e { q with live := [] } dr q')
    (hworks : WorksOnly { q with live := [] } q') (hq' : q'.Faithful p d r) :
    ∃ m s', dr = { ahead := [s'] } ∧ m < n ∧ p.SingleRun d r m s' e ∧
      Ahead p d r m s' { q' with parsedPos := s'.pos, live := [s'] } := by
  obtain ⟨m, s', rfl, hrun, hlt, hhi, -, hless, hframes, hcount⟩ := hgoes
  have hsingle := ((hq.single.setLive q.parsedPos []).works hworks hq').setLive s'.pos [s']
  have hpos := hq.parsedPos
  have hless := hless hpos
  have hlo := hq.lo
  have hlimit := hq.limit
  have hdepth := hq.depth
  have hbig := hq.count
  obtain ⟨stream, watch, memo, rfl⟩ := hworks
  dsimp only at hcount
  refine ⟨m, s', rfl, hless, hrun, hsingle, rfl, rfl, ?_, hhi, ?_, ?_, ?_, hq.result⟩
  · omega
  · dsimp only
    omega
  · omega
  · dsimp only
    omega

/-- One step of a parse with a single stack: it goes on past the position, or ends with what the
run says about the document. -/
theorem step_single (hp : p.IsDeterministic) (hrun : p.SingleRun d r n s e)
    (hq : q.Ahead p d r n s) (hcase : p.accepts r e = true ∨ p.strict = true) :
    Ensures (fun f => p.verdict r q.epoch e = .error f) step q fun result q' =>
      match result with
      | some t => p.verdict r q.epoch e = .ok t
      | none => q'.epoch = q.epoch ∧
          ∃ m s', m < n ∧ p.SingleRun d r m s' e ∧ q'.Ahead p d r m s' := by
  have hcount := hq.count
  have hsingle := hq.single.setLive q.parsedPos []
  unfold step
  rw [ensures_bind, ensures_get]
  dsimp only
  rw [ensures_bind, ensures_set, hq.live]
  refine ((fastForward_single hp hsingle.faithful.parser (by dsimp only; omega)).weaken
    (fun _ h => absurd h id)).bind ?_
  rintro live q₁ ⟨hlive, hq₁⟩
  rw [hlive, hq₁]
  refine ((drainF_single hp hrun hq.lo hq.hi (Nat.le_of_eq hq.parsedPos) hq.limit hq.depth
    hsingle).weaken (fun _ h => absurd h id)).bind ?_
  rintro dr q' ⟨hq', hworks, hgoes | hended⟩
  · obtain ⟨m, s', rfl, hm, hrun', hahead⟩ := hq.goesOn hgoes hworks hq'
    simp only [List.isEmpty_cons, Bool.false_eq_true, if_false]
    refine (goOn_single _ (hsingle.works hworks hq').recovering).mono ?_
    rintro _ _ ⟨rfl, rfl⟩
    obtain ⟨_, _, _, rfl⟩ := hworks
    exact ⟨rfl, m, s', hm, hrun', hahead⟩
  · obtain ⟨term, stop, rfl, hpos⟩ := hended
    have hend := hsingle.works hworks hq'
    have hepoch : q'.epoch = q.epoch := by
      obtain ⟨_, _, _, rfl⟩ := hworks
      rfl
    simp only [List.isEmpty_nil, if_true, List.map_cons, List.map_nil, bestStack_single hq.single]
    by_cases haccepts : p.accepts r e = true
    · simp only [haccepts, if_true]
      refine (hepoch ▸ toTree_single hend haccepts).bind ?_
      exact fun t _ ht => ht
    · simp only [haccepts, Bool.false_eq_true, if_false]
      rw [← hpos, ensures_bind]
      exact enterRecovery_single hend.faithful.parser (hcase.resolve_left haccepts) haccepts q.epoch

/-- All steps of a parse: if every step from a parse with `n` of something left comes to a result or
leaves less of it, then so do all steps together. -/
theorem finishF_of_steps (left : Nat → Parse → Prop) {result : Except Failure Tree}
    (hnew : ∀ n q, left n q → q.result = none)
    (hstep : ∀ n q, left n q →
      Ensures (fun f => result = .error f) step q fun tree q' =>
        match tree with
        | some t => result = .ok t
        | none => ∃ m, m < n ∧ left m q')
    (h : left n q) {fuel : Nat} (hfuel : n < fuel) : (finishF fuel q).1 = result := by
  induction n using Nat.strongRecOn generalizing q fuel with
  | ind n ih =>
      obtain ⟨fuel, rfl⟩ := Nat.exists_eq_succ_of_ne_zero (Nat.ne_of_gt (Nat.zero_lt_of_lt hfuel))
      have key := hstep n q h
      have hadvance : q.advance = step.run q := by
        rw [advance, hnew n q h]
      rw [finishF, hadvance]
      rw [Ensures] at key
      generalize step.run q = outcome at key
      obtain ⟨f | tree, q'⟩ := outcome
      · exact key.symm
      · cases tree with
        | some t => exact key.symm
        | none =>
            obtain ⟨m, hlt, hleft⟩ := key
            exact ih m hlt hleft (by omega)

/-- All steps of a parse with a single stack. -/
theorem finishF_single (hp : p.IsDeterministic) (hrun : p.SingleRun d r n s e)
    (hq : q.Ahead p d r n s) (hcase : p.accepts r e = true ∨ p.strict = true) {fuel : Nat}
    (hfuel : n < fuel) : (finishF fuel q).1 = p.verdict r q.epoch e := by
  refine finishF_of_steps (fun n q' => q'.epoch = q.epoch ∧
    ∃ s, p.SingleRun d r n s e ∧ q'.Ahead p d r n s) ?_ ?_ ⟨rfl, s, hrun, hq⟩ hfuel
  · rintro n q' ⟨-, s', -, hq'⟩
    exact hq'.result
  · rintro n q₁ ⟨hepoch, s', hrun', hq₁⟩
    rw [← hepoch]
    refine (step_single hp hrun' hq₁ hcase).mono ?_
    rintro tree q₂ hstep
    cases tree with
    | some t => exact hstep
    | none =>
        obtain ⟨hkept, m, s'', hlt, hrun'', hq₂⟩ := hstep
        exact ⟨m, hlt, hkept, s'', hrun'', hq₂⟩

end Acting

/-- A parse of one range starts with everything to do. -/
theorem start_ahead {p : Parser} {d : Document} (hd : d.HandsOut) {ranges : List Span} {r : Span}
    {epoch limit n : Nat}
    (hranges : ranges = [r] ∧ r.start ≤ r.stop ∨ ranges = [] ∧ r = ⟨0, d.size⟩)
    (hn : 3 * n < maxSize) (hlimit : n + 2 ≤ limit) :
    ∃ q, Parse.start p d [] ranges epoch limit = .ok q ∧ q.epoch = epoch ∧ q.env.limit = limit ∧
      q.Ahead p d r n (.start p r.start) := by
  have hle : r.start ≤ r.stop := by
    rcases hranges with ⟨-, hle⟩ | ⟨-, rfl⟩
    · exact hle
    · exact Nat.zero_le _
  have hok : rangesOk ranges = true := by
    rcases hranges with ⟨rfl, hle⟩ | ⟨rfl, -⟩
    · simp [rangesOk, hle]
    · rfl
  have hone : (if ranges.isEmpty then [⟨0, d.size⟩] else ranges) = [r] := by
    rcases hranges with ⟨rfl, -⟩ | ⟨rfl, rfl⟩
    · rfl
    · rfl
  unfold Parse.start
  simp only [hok, Bool.not_true, Bool.false_eq_true, if_false, hone]
  refine ⟨_, rfl, rfl, rfl, ⟨⟨.of_no_tokens rfl (Stream.reads_start hd r) rfl, rfl, rfl, rfl, rfl,
    rfl⟩, rfl, rfl, Nat.le_refl _, hle, hlimit, ?_, ?_, rfl⟩⟩
  · change 3 * (0 + n) < maxSize
    omega
  · change 0 + n ≤ maxSize
    omega

/-! ### A parser that accepts one text -/

/-- A strict parser for the text `a`, which is reduced to a term, with a given top type. -/
def onceParser (term top : Nat) : Parser :=
  let states : List ParseState :=
    [{ actions := [(6, .shift 1)], tokenizerMask := 1 },
      { defaultReduce := some (.reduce term 1) },
      { accepting := true, tokenizerMask := 1 }]
  { pairParser with
    tables :=
      ⟨(layOutStates states {}).1.toArray, (layOutStates states {}).2.slots,
        (gotoSlots [(0, term, 2)]).toArray⟩,
    top := (0, top),
    strict := true,
    tuning := { cutDepth := maxSize, maxLeftAssociativeReductionCount := maxSize },
    tokenizers := #[.ofGroup ⟨#[1, 3, 1, 97, 98, 6, 1, 11, 0, 6, 1], 0⟩] }

theorem onceParser_isDeterministic {term top : Nat}
    (h : (onceParser term top).tables.isSingle = true) : (onceParser term top).IsDeterministic where
  groups := by
    intro t ht
    obtain rfl := List.mem_singleton.1 (Array.mem_toList_iff.2 ht)
    exact ⟨_, rfl⟩
  keywords := by
    intro x hx
    cases hx
  tracker := rfl
  single := Tables.length_collectActions_le h
  cutDepth := rfl
  repetitions := rfl

/-- **A parse of a deterministic parser is the run of a single stack.**  If the run ends at the end
of the range in a state in which a parse may end, strict and lax parsers build the tree from its
records, or refuse them for the reason that the builder has; otherwise a strict parser refuses the
document where the run stops.  Unless a reduction of the tables makes error nodes there is none
among the records.

The run has to be one that a machine can count, and the bound on loops has to be past its length. -/
theorem finish_deterministic {p : Parser} {d : Document} (hd : d.HandsOut) {ranges : List Span}
    {r : Span} {epoch limit n : Nat} {e : Stack} (hp : p.IsDeterministic)
    (hranges : ranges = [r] ∧ r.start ≤ r.stop ∨ ranges = [] ∧ r = ⟨0, d.size⟩)
    (hrun : p.SingleRun d r n (.start p r.start) e) (hn : 3 * n < maxSize)
    (hlimit : n + 2 ≤ limit) :
    ∃ q, Parse.start p d [] ranges epoch limit = .ok q ∧
      (p.accepts r e = true → q.finish.1 =
        match Tree.buildFrom (planFor p #[] r.start e.pos) (e.close p).reader with
        | .ok t => .ok (t.stampAll epoch)
        | .error err => .error (.error err)) ∧
      (p.accepts r e = false → p.strict = true →
        q.finish.1 = .error (.error (.noParse e.pos))) ∧
      ((∀ state word, p.tables.Reduces state word → ActionWord.value word ≠ errorTerm) →
        (e.close p).HasNoErrors) := by
  obtain ⟨q, hstart, hepoch, hbound, hahead⟩ :
      ∃ q, Parse.start p d [] ranges epoch limit = .ok q ∧ _ := start_ahead hd hranges hn hlimit
  have hfinish : p.accepts r e = true ∨ p.strict = true → q.finish.1 = p.verdict r epoch e := by
    intro hcase
    rw [finish, hbound, ← hepoch]
    exact finishF_single hp hrun hahead hcase (by omega)
  refine ⟨q, hstart, fun haccepts => ?_, fun hrefuses hstrict => ?_, fun hclean => ?_⟩
  · have hverdict := hfinish (Or.inl haccepts)
    rw [Parser.verdict, if_pos haccepts] at hverdict
    exact hverdict
  · rw [hfinish (Or.inr hstrict), Parser.verdict, hrefuses]
    rfl
  · refine (hrun.hasNoErrors hp hclean ?_).close hp.tracker
    intro x hx
    cases hx

/-- The text `a` gets a tree, and the text `aa` is refused behind its first byte. -/
theorem finish_deterministic_once :
    (∃ q, Parse.start (onceParser 2 1) { bytes := #[97] } [] [] 1 10 = .ok q ∧
      q.finish.1.toOption.isSome = true) ∧
    ∃ q, Parse.start (onceParser 2 1) { bytes := #[97, 97] } [] [] 1 10 = .ok q ∧
      q.finish.1 = .error (.error (.noParse 1)) := by
  have hp : (onceParser 2 1).IsDeterministic := onceParser_isDeterministic (by decide +kernel)
  constructor
  · have heval : ((onceParser 2 1).singleRunF { bytes := #[97] } ⟨0, 1⟩ 9
        (.start (onceParser 2 1) 0)).any (fun x => x.1 = 2 &&
          (onceParser 2 1).accepts ⟨0, 1⟩ x.2 &&
          (Tree.buildFrom (planFor (onceParser 2 1) #[] 0 x.2.pos)
            (x.2.close (onceParser 2 1)).reader).toOption.any fun _ => true) = true := by
      decide +kernel
    obtain ⟨⟨n, e⟩, hrun, heval⟩ := (Option.any_eq_true _ _).1 heval
    simp only [Bool.and_eq_true, decide_eq_true_eq] at heval
    obtain ⟨⟨rfl, haccepts⟩, hbuilt⟩ := heval
    obtain ⟨t, ht, -⟩ := exists_ok_of_any hbuilt
    obtain ⟨q, hstart, haccepted, -⟩ := finish_deterministic (by decide) hp (Or.inr ⟨rfl, rfl⟩)
      (Parser.singleRun_of_runF hrun) (show 3 * 2 < maxSize by decide) (show 2 + 2 ≤ 10 by decide)
    refine ⟨q, hstart, ?_⟩
    rw [haccepted haccepts, ht]
    rfl
  · have heval : ((onceParser 2 1).singleRunF { bytes := #[97, 97] } ⟨0, 2⟩ 9
        (.start (onceParser 2 1) 0)).any (fun x => x.1 = 2 &&
          !(onceParser 2 1).accepts ⟨0, 2⟩ x.2 && x.2.pos = 1) = true := by decide +kernel
    obtain ⟨⟨n, e⟩, hrun, heval⟩ := (Option.any_eq_true _ _).1 heval
    simp only [Bool.and_eq_true, Bool.not_eq_true', decide_eq_true_eq] at heval
    obtain ⟨⟨rfl, hrefuses⟩, hpos⟩ := heval
    obtain ⟨q, hstart, -, hrefused, -⟩ := finish_deterministic (by decide) hp (Or.inr ⟨rfl, rfl⟩)
      (Parser.singleRun_of_runF hrun) (show 3 * 2 < maxSize by decide) (show 2 + 2 ≤ 10 by decide)
    exact ⟨q, hstart, hpos ▸ hrefused hrefuses rfl⟩

/-- A strict parser that skips spaces and makes a node of type 2 of the token without text that
follows: its group takes a space for a token of term 4, and elsewhere nothing for one of term 5. -/
def spaceParser : Parser :=
  let states : List ParseState :=
    [{ actions := [(5, .shift 1)], skip := [(4, .skip)], tokenizerMask := 1 },
      { defaultReduce := some (.reduce 2 1) },
      { accepting := true }]
  { onceParser 2 1 with
    tables :=
      ⟨(layOutStates states {}).1.toArray, (layOutStates states {}).2.slots,
        (gotoSlots [(0, 2, 2)]).toArray⟩,
    tokenizers := #[.ofGroup ⟨#[1, 5, 1, 5, 1, 32, 33, 8, 1, 13, 0, 4, 1], 0⟩] }

/-- **An accepted run whose tree is refused.**  The run through a space ends at its end in a state in
which a parse may end, and has no error node; but the node that it makes starts behind the space and
ends in front of it, so that a strict parse comes to no tree. -/
theorem finish_refuses_space :
    ∃ e q, spaceParser.IsDeterministic ∧ spaceParser.strict = true ∧
      spaceParser.SingleRun { bytes := #[32] } ⟨0, 1⟩ 3 (.start spaceParser 0) e ∧
      spaceParser.accepts ⟨0, 1⟩ e = true ∧
      Parse.start spaceParser { bytes := #[32] } [] [] 1 10 = .ok q ∧
      q.finish.1 = .error (.error (.invalidRecord 4)) := by
  have hp : spaceParser.IsDeterministic := by
    refine ⟨fun t ht => ?_, fun x hx => (by cases hx), rfl,
      Tables.length_collectActions_le (by decide +kernel), rfl, rfl⟩
    obtain rfl := List.mem_singleton.1 (Array.mem_toList_iff.2 ht)
    exact ⟨_, rfl⟩
  have hruns : (spaceParser.singleRunF { bytes := #[32] } ⟨0, 1⟩ 9 (.start spaceParser 0)).any
      (fun x => x.1 = 3 && spaceParser.accepts ⟨0, 1⟩ x.2) = true := by decide +kernel
  obtain ⟨⟨n, e⟩, hrun, hruns⟩ := (Option.any_eq_true _ _).1 hruns
  simp only [Bool.and_eq_true, decide_eq_true_eq] at hruns
  obtain ⟨rfl, haccepts⟩ := hruns
  have hfinish : (Parse.start spaceParser { bytes := #[32] } [] [] 1 10).toOption.any
      (fun q => errorOf? q.finish.1 = some (.invalidRecord 4)) = true := by decide +kernel
  obtain ⟨q, hstart, hrefused⟩ := exists_ok_of_any hfinish
  exact ⟨e, q, hp, rfl, Parser.singleRun_of_runF hrun, haccepts, hstart,
    eq_error_of_errorOf? (of_decide_eq_true hrefused)⟩

end Parse

end IncrementalLR
