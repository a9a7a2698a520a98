/-
**What one step of a parse does.**

The parts of a step are put together here: all stacks are taken past the lowest position, then the
parse is finished, or some of the stacks go on.  What one step does is stated once, in
`Parse.step_ensures`; everything about whole parses follows from it by induction on the steps.

Main definitions:

* `Parse.Yields`, `Parse.Fails` — the tree of a stack, and why a step fails;
* `Tuning.Lasting` — numbers that leave something for recovery to do;
* `Parse.Ready` — a parse between two steps.

Main results:

* `Parse.drainF_ensures` — every stack gets past the position or is stuck there;
* `Parse.step_ensures` — **what one step does**.
-/

import IncrementalLR.Proofs.Driver
import IncrementalLR.Proofs.Formed
import IncrementalLR.Proofs.Pruning

set_option relaxedAutoImplicit false
set_option autoImplicit false

namespace IncrementalLR

/-- Numbers with which recovery is turned on, and with which the selection of stacks keeps one. -/
structure Tuning.Lasting (t : Tuning) : Prop where
  distance : 0 < t.recoveryDistance
  perStep : 0 < t.maxRemainingPerStep
  count : 0 < t.maxStackCount

theorem Tuning.lasting_default : Tuning.Lasting {} := ⟨by decide, by decide, by decide⟩

namespace Parse

/-! ### Choosing stacks -/

/-- The best stack is one of those that meet the condition. -/
theorem bestStack?_eq_some {ok : Stack → Bool} {l : List Stack} {s : Stack}
    (h : bestStack? ok l = some s) : s ∈ l ∧ ok s = true := by
  have hfold : ∀ (rest : List Stack) (best : Option Stack),
      (∀ x, best = some x → x ∈ l ∧ ok x = true) → (∀ x ∈ rest, x ∈ l) →
      ∀ x, rest.foldl (fun best s =>
        if ok s && best.all (·.score < s.score) then some s else best) best = some x →
        x ∈ l ∧ ok x = true := by
    intro rest
    induction rest with
    | nil => exact fun best hbest _ x hx => hbest x hx
    | cons y rest ih =>
        intro best hbest hrest x hx
        refine ih _ ?_ (fun z hz => hrest z (List.mem_cons_of_mem _ hz)) x hx
        intro z hz
        dsimp only at hz
        split at hz
        · rename_i hy
          obtain rfl := Option.some.inj hz
          simp only [Bool.and_eq_true] at hy
          exact ⟨hrest y List.mem_cons_self, hy.1⟩
        · exact hbest z hz
  exact hfold l none (by simp) (fun _ hx => hx) s h

/-! ### Draining -/

section Stepping

open ParseM

variable {g : Setting} {p₀ q : Parse} {pos : Nat}

/-- Leaving rules of the only stack stays where it is. -/
theorem fastForward_ensures {live : List Stack} (hlive : AtLeast g pos live)
    (hq : q.Along g p₀) :
    Ensures g.parser.MayFail (fastForward live) q fun live' q' =>
      q'.Along g p₀ ∧ AtLeast g pos live' ∧ (live ≠ [] → live' ≠ []) := by
  unfold fastForward
  rw [ensures_bind, ensures_get]
  split
  · rename_i s
    obtain ⟨hs, hpos⟩ := hlive s List.mem_cons_self
    have hone : ∀ {s' : Stack}, s'.Known g → s'.pos = s.pos → AtLeast g pos [s'] := by
      intro s' hs' hpos' x hx
      obtain rfl := List.mem_singleton.1 hx
      exact ⟨hs', by omega⟩
    refine ensures_ite (fun _ => ?_) (fun _ => ⟨hq, hlive, id⟩)
    rw [hq.parser, ensures_bind]
    refine ensures_onEnvLimited g.parser.mayFail_limit fun r hr => ?_
    rw [ensures_bind, ensures_modify, ensures_pure]
    have key : r.1.Known g ∧ r.1.pos = s.pos ∧ r.2.Follows g := by
      rcases hr' : s.leaveRule g.parser q.env with ⟨_ | _, r'⟩
      · rw [hr'] at hr
        obtain ⟨-, rfl⟩ := Stack.leaveRule_eq_false hr'
        obtain rfl := Option.some.inj hr
        exact ⟨hs, rfl, hq.env⟩
      · rw [hr'] at hr
        obtain ⟨h₁, h₂, h₃⟩ := known_leaveWhileF _ (hs.move (.leave hq.env.start hr'))
          (Stack.follows_leaveRule hq.env hr') hr
        exact ⟨h₁, h₂.trans (Stack.pos_leaveRule hr'), h₃⟩
    obtain ⟨h₁, h₂, h₃⟩ := key
    exact ⟨hq.withEnv ⟨h₃.start, h₃.stream⟩, hone h₁ h₂, fun _ => by simp⟩
  · exact ⟨hq, hlive, id⟩

/-- What has been drained from a queue: stacks past the position, and stacks stuck at it. -/
structure Drained.Sound (g : Setting) (pos : Nat) (d : Drained) : Prop where
  ahead : Past g pos d.ahead
  stuck : ∀ s ∈ d.stuck, s.At g pos

/-- Every stack of a queue gets past the position or is stuck there, and none is lost. -/
theorem drainF_ensures (hg : g.Fits) (hacc : g.parser.OnlyAccepts) (fuel : Nat)
    {queue : List Stack} {d : Drained} (hqueue : AtLeast g pos queue) (hd : d.Sound g pos)
    (hq : q.Along g p₀) :
    Ensures g.parser.MayFail (drainF pos fuel queue d) q fun d' q' =>
      q'.Along g p₀ ∧ d'.Sound g pos ∧
        (queue ≠ [] ∨ d.ahead ≠ [] ∨ d.stuck ≠ [] → d'.ahead ≠ [] ∨ d'.stuck ≠ []) := by
  induction fuel generalizing queue d q with
  | zero => exact g.parser.mayFail_limit
  | succ fuel ih =>
      cases queue with
      | nil =>
          refine ⟨hq, hd, ?_⟩
          rintro (h | h)
          · exact absurd rfl h
          · exact h
      | cons s queue =>
          obtain ⟨hs, hle⟩ := hqueue s List.mem_cons_self
          have hrest : AtLeast g pos queue := fun x hx => hqueue x (List.mem_cons_of_mem _ hx)
          rw [drainF, ensures_bind, ensures_modify]
          refine ensures_ite (fun hlt => ?_) (fun hge => ?_)
          · have hahead : Drained.Sound g pos { d with ahead := d.ahead ++ [s] } := by
              refine ⟨hd.ahead.append ?_, hd.stuck⟩
              intro x hx
              obtain rfl := List.mem_singleton.1 hx
              exact ⟨hs, hlt⟩
            refine (ih hrest hahead (hq.withMain none)).mono ?_
            rintro d' q' ⟨h₁, h₂, h₃⟩
            exact ⟨h₁, h₂, fun _ => h₃ (Or.inr (Or.inl (by simp)))⟩
          · have hpos : s.pos = pos := by omega
            refine (actOn_ensures hg hacc hs (hq.withMain none)).bind ?_
            rintro a q' ⟨hq', ha, hmain⟩
            rw [hpos] at ha hmain
            have hahead : Past g pos (d.ahead ++ a.ahead) := hd.ahead.append ha.ahead
            refine ensures_ite (fun _ => ?_) (fun hmoved => ?_)
            · have hqueue' : AtLeast g pos (a.stack :: (queue ++ a.level)) := by
                intro x hx
                rcases List.mem_cons.1 hx with rfl | hx
                · exact ⟨ha.stack, ha.le_pos⟩
                · exact hrest.append ha.level x hx
              have hd' : Drained.Sound g pos { d with ahead := d.ahead ++ a.ahead } :=
                ⟨hahead, hd.stuck⟩
              refine (ih hqueue' hd' hq').mono ?_
              rintro d' q'' ⟨h₁, h₂, h₃⟩
              exact ⟨h₁, h₂, fun _ => h₃ (Or.inl (by simp))⟩
            · rw [ensures_bind, ensures_get]
              have hstays := ha.stays (by simpa using hmoved)
              have hhi := (ha.stack.pos_le hg).2
              obtain ⟨h₁, h₂⟩ := mainToken_bounds hg hhi hq' (hstays.symm ▸ hmain rfl)
              have hstuck : ∀ x ∈ d.stuck ++ [⟨a.stack, (q'.mainToken a.stack).1,
                  (q'.mainToken a.stack).2⟩], Stuck.At g pos x := by
                intro x hx
                rcases List.mem_append.1 hx with hx | hx
                · exact hd.stuck x hx
                · obtain rfl := List.mem_singleton.1 hx
                  exact ⟨ha.stack, hstays, hstays ▸ h₁, h₂⟩
              refine (ih (hrest.append ha.level) ⟨hahead, hstuck⟩ hq').mono ?_
              rintro d' q'' ⟨h₁, h₂, h₃⟩
              exact ⟨h₁, h₂, fun _ => h₃ (Or.inr (Or.inr (by simp)))⟩

/-! ### Trees -/

@[simp] theorem pos_close (p : Parser) (s : Stack) : (s.close p).pos = s.pos := by
  unfold Stack.close Stack.markLookAhead
  simp only
  split <;> split <;> simp

/-- What the tree of a stack is built from besides its records. -/
def planFor (p : Parser) (reused : Array Tree) (lo pos : Nat) : BuildPlan :=
  { set := p.set, top := p.top.2, maxBuffer := p.bufferLength, reused, start := lo,
    length := some (pos - lo), minRepeat := some p.minRepeat }

/-- The tree of a stack: its records, with the last markers among them, are built and stamped. -/
def Yields (g : Setting) (s : Stack) (t : Tree) : Prop :=
  ∃ (reused : Array Tree) (epoch : Nat) (built : Tree),
    Tree.buildFrom (planFor g.parser reused g.lo s.pos) (s.close g.parser).reader = .ok built ∧
      t = built.stampAll epoch

/-- The tree of a stack is as long as the text up to the stack. -/
theorem Yields.length_eq {s : Stack} {t : Tree} (h : Yields g s t) :
    t.length = min (s.pos - g.lo) maxWord := by
  obtain ⟨reused, epoch, built, hbuilt, rfl⟩ := h
  rw [Tree.stampAll, Tree.length_number]
  obtain ⟨ty, cs, -, -, rfl⟩ := Tree.exists_of_buildFrom hbuilt
  rfl

/-- Why a step fails: while it works on stacks, on a record of a stack that moves lead to, or
because no stack gets on, for a strict parser or with numbers that leave nothing for recovery to
do. -/
inductive Fails (g : Setting) : Failure → Prop
  | working {e : Failure} : g.parser.MayFail e → Fails g e
  | building {s : Stack} {reused : Array Tree} {size : Int} : s.Known g →
      Tree.buildFrom (planFor g.parser reused g.lo s.pos) (s.close g.parser).reader =
        .error (.invalidRecord size) →
      Fails g (.error (.invalidRecord size))
  | stuck {pos : Nat} : (g.parser.strict = false → ¬ g.parser.tuning.Lasting) →
      Fails g (.error (.noParse pos))

theorem toTree_ensures {s : Stack} (hs : s.Known g) (hq : q.Along g p₀) :
    Ensures (Fails g) (toTree s) q fun t _ => Yields g s t := by
  unfold toTree
  rw [ensures_bind, ensures_get]
  dsimp only
  rw [hq.parser, hq.env.start, pos_close]
  split
  · rename_i e he
    obtain ⟨size, rfl⟩ := Tree.buildFrom_error he
    exact .building hs he
  · rename_i t ht
    rw [ensures_bind, ensures_set]
    exact ⟨_, _, t, ht, rfl⟩

/-- A stack that is made to end where it stands. -/
theorem forceTree_ensures {s : Stack} (hs : s.Known g) (hq : q.Along g p₀) :
    Ensures (Fails g) (forceTree s) q fun t _ =>
      ∃ s', s'.Known g ∧ s'.pos = s.pos ∧ Yields g s' t := by
  unfold forceTree
  rw [ensures_bind, ensures_ofParser, hq.parser, ensures_bind]
  refine ensures_onEnvLimited (.working g.parser.mayFail_limit) fun r hr => ?_
  unfold Stack.leaveAllF at hr
  obtain ⟨left, hleft, rfl⟩ := Option.map_eq_some_iff.1 hr
  obtain ⟨h₁, h₂, h₃⟩ := known_leaveWhileF _ hs hq.env hleft
  split
  · refine (toTree_ensures h₁ (hq.withEnv h₃)).mono fun t _ ht => ?_
    exact ⟨_, h₁, h₂, ht⟩
  · refine (toTree_ensures (h₁.move (.error _)) (hq.withEnv h₃)).mono fun t _ ht => ?_
    exact ⟨_, h₁.move (.error _), by simpa using h₂, ht⟩

/-! ### Steps -/

/-- Recovery leaves a stack to go on with, unless it finishes. -/
theorem repairOrFinish_ensures (hg : g.Fits) (hacc : g.parser.OnlyAccepts) {d : Drained}
    (hd : d.Sound g pos) (hq : q.Along g p₀) :
    Ensures g.parser.MayFail (repairOrFinish d.stuck d.ahead) q fun r q' =>
      q'.Along g p₀ ∧ Past g pos r.1 ∧
        (∀ x, r.2 = some x → x.Known g ∧ (p₀.stoppedAt = none → x.pos = g.hi)) ∧
        (r.2 = none → d.ahead ≠ [] ∨ d.stuck ≠ [] → r.1 ≠ []) := by
  unfold repairOrFinish
  rw [ensures_bind, ensures_get]
  cases hstuck : d.stuck with
  | nil =>
      refine ⟨hq, hd.ahead, by simp, ?_⟩
      rintro - (h | h)
      · exact h
      · exact absurd rfl h
  | cons first rest =>
      have hall : ∀ s ∈ first :: rest, s.At g pos := hstuck ▸ hd.stuck
      refine ensures_ite (fun hstopped => ?_) (fun _ => ?_)
      · refine ⟨hq, hd.ahead, ?_, by simp⟩
        intro x hx
        obtain rfl := Option.some.inj hx
        refine ⟨(hall first List.mem_cons_self).stack, fun hnone => ?_⟩
        rw [hq.stoppedAt, hnone] at hstopped
        cases hstopped
      · have hr : Recovered.Sound g pos { ahead := d.ahead } := ⟨hd.ahead, by simp⟩
        refine (recover_ensures hg hacc _ hall hr hq).bind ?_
        rintro r q' ⟨hq', hr', hfound⟩
        refine ⟨hq', hr'.ahead, ?_, ?_⟩
        · intro x hx
          exact ⟨(hr'.finished x hx).1, fun _ => (hr'.finished x hx).2⟩
        · intro hnone _
          rcases hfound (Or.inr ⟨by simp, rfl⟩) with h | h
          · exact h
          · dsimp only at hnone
            rw [hnone] at h
            cases h

/-- Selecting stacks keeps one. -/
theorem selectStacks_ensures {ahead : List Stack} (hahead : Past g pos ahead)
    (hq : q.Along g p₀) :
    Ensures g.parser.MayFail (selectStacks pos ahead) q fun kept q' =>
      q'.Along g p₀ ∧ Past g pos kept ∧
        (g.parser.tuning.Lasting → ahead ≠ [] → kept ≠ []) := by
  refine (ensures_selectStacks _ pos ahead q).mono ?_
  rintro kept q' ⟨rfl, hq'⟩
  refine ⟨?_, fun x hx => hahead x (mem_of_mem_chosen hx), fun hlast hne => ?_⟩
  · rcases hq' with rfl | rfl
    · exact hq
    · exact ⟨hq.parser, hq.reuse, hq.env, hq.tokens, hq.stoppedAt, hq.result⟩
  · rw [hq.parser]
    exact chosen_ne_nil hlast.perStep hlast.count hne

/-- What a step leads to from a position: the tree of a stack, which is at the end unless the parse
was told to stop, or stacks that are all past the position. -/
def Led (g : Setting) (p₀ : Parse) (pos : Nat) : Option Tree → Parse → Prop
  | some t, _ => ∃ s, s.Known g ∧ Yields g s t ∧ (p₀.stoppedAt = none → s.pos = g.hi)
  | none, q => q.Along g p₀ ∧ Past g pos q.live ∧ q.live ≠ [] ∧
      pos < q.parsedPos ∧ ∀ s ∈ q.live, q.parsedPos ≤ s.pos

theorem enterRecovery_ensures (hq : q.Along g p₀) :
    Ensures (Fails g) (enterRecovery pos) q fun _ q' =>
      q'.Along g p₀ ∧ (g.parser.tuning.Lasting → 0 < q'.recovering) := by
  unfold enterRecovery
  rw [ensures_bind, ensures_get]
  refine ensures_ite (fun hstrict => ?_) (fun _ => ensures_ite (fun _ => ?_) (fun hon => ?_))
  · refine .stuck fun hlax => ?_
    rw [hq.parser, hlax] at hstrict
    cases hstrict
  · rw [ensures_set]
    refine ⟨⟨hq.parser, hq.reuse, hq.env, hq.tokens, hq.stoppedAt, hq.result⟩, fun hlast => ?_⟩
    dsimp only
    rw [hq.parser]
    exact hlast.distance
  · exact ⟨hq, fun _ => Nat.pos_of_ne_zero hon⟩

/-- Finishing, or going on with the stacks that are selected. -/
theorem settle_ensures {ahead : List Stack} {done : Option Stack} (hahead : Past g pos ahead)
    (hdone : ∀ x, done = some x → x.Known g ∧ (p₀.stoppedAt = none → x.pos = g.hi))
    (hne : done = none → g.parser.tuning.Lasting → ahead ≠ []) (hq : q.Along g p₀) :
    Ensures (Fails g) (settle pos ahead done) q (Led g p₀ pos) := by
  cases done with
  | some x =>
      obtain ⟨hx, hend⟩ := hdone x rfl
      refine (forceTree_ensures hx hq).bind ?_
      rintro t q' ⟨s, hs, hpos, hyields⟩
      exact ⟨s, hs, hyields, fun hnone => hpos.trans (hend hnone)⟩
  | none =>
      refine ((selectStacks_ensures hahead hq).weaken fun _ => .working).bind ?_
      rintro kept q' ⟨hq', hkept, hkeeps⟩
      cases hlow : (kept.map (·.pos)).min? with
      | none =>
          refine .stuck fun _ hlast => absurd ?_ (hkeeps hlast (hne rfl hlast))
          simpa using hlow
      | some low =>
          obtain ⟨hmem, hleast⟩ := List.min?_eq_some_iff.1 hlow
          obtain ⟨x, hx, rfl⟩ := List.mem_map.1 hmem
          rw [ensures_bind, ensures_modify]
          refine ⟨⟨hq'.parser, hq'.reuse, hq'.env, hq'.tokens, hq'.stoppedAt, hq'.result⟩,
            hkept, List.ne_nil_of_mem hx, (hkept x hx).2, ?_⟩
          intro s hs
          exact hleast s.pos (List.mem_map_of_mem hs)

theorem goOn_ensures (hg : g.Fits) (hacc : g.parser.OnlyAccepts) {d : Drained}
    (hd : d.Sound g pos) (hq : q.Along g p₀)
    (hleft : g.parser.tuning.Lasting → d.ahead ≠ [] ∨ d.stuck ≠ [] ∧ 0 < q.recovering) :
    Ensures (Fails g) (goOn pos d) q (Led g p₀ pos) := by
  unfold goOn
  rw [ensures_bind, ensures_get]
  refine ensures_ite (fun _ => ?_) (fun hoff => ?_)
  · refine ((repairOrFinish_ensures hg hacc hd hq).weaken fun _ => .working).bind ?_
    rintro r q' ⟨hq', hahead, hdone, hne⟩
    refine settle_ensures hahead hdone (fun hnone hlast => hne hnone ?_) hq'
    rcases hleft hlast with h | h
    · exact Or.inl h
    · exact Or.inr h.1
  · refine settle_ensures hd.ahead (by simp) (fun _ hlast => ?_) hq
    rcases hleft hlast with h | h
    · exact h
    · exact absurd h.2 hoff

/-- A parse between two steps: it is not finished, and follows at least one stack. -/
structure Ready (g : Setting) (q : Parse) : Prop where
  along : q.Along g q
  live : AtLeast g q.parsedPos q.live
  nonempty : q.live ≠ []
  unfinished : q.result = none

/-- **What one step does.**  It gives the tree of a stack that was reached by moves, or takes every
stack past the position. -/
theorem step_ensures (hg : g.Fits) (hacc : g.parser.OnlyAccepts) (hq : q.Ready g) :
    Ensures (Fails g) step q (Led g q q.parsedPos) := by
  have halong := hq.along
  unfold step
  rw [ensures_bind, ensures_get, ensures_bind, ensures_set]
  have hcleared : Along g { q with live := [] } q :=
    ⟨halong.parser, halong.reuse, halong.env, halong.tokens, rfl, rfl⟩
  refine ((fastForward_ensures hq.live hcleared).weaken fun _ => .working).bind ?_
  rintro queue q₁ ⟨hq₁, hqueue, hne₁⟩
  refine ((drainF_ensures hg hacc _ hqueue ⟨by simp [Past], by simp⟩ hq₁).weaken
    fun _ => .working).bind ?_
  rintro d q₂ ⟨hq₂, hd, hne₂⟩
  have hleft := hne₂ (Or.inl (hne₁ hq.nonempty))
  refine ensures_ite (fun hempty => ?_) (fun hsome => ?_)
  · have hstuck : d.stuck ≠ [] := by
      rcases hleft with h | h
      · exact absurd (by simpa using hempty) h
      · exact h
    cases hdone : bestStack? q.isDone (d.stuck.map (·.stack)) with
    | some s =>
        obtain ⟨hmem, hisDone⟩ := bestStack?_eq_some hdone
        obtain ⟨stuck, hin, rfl⟩ := List.mem_map.1 hmem
        refine (toTree_ensures (hd.stuck stuck hin).stack hq₂).bind ?_
        intro t _ ht
        refine ⟨stuck.stack, (hd.stuck stuck hin).stack, ht, fun hnone => ?_⟩
        have hend := halong.env.stream.stop
        simp only [isDone, hnone, Bool.and_eq_true, Bool.or_eq_true, decide_eq_true_eq,
          Option.any_none, Bool.false_eq_true, or_false] at hisDone
        omega
    | none =>
        refine (enterRecovery_ensures hq₂).bind ?_
        rintro _ q₃ ⟨hq₃, hon⟩
        exact goOn_ensures hg hacc hd hq₃ fun hlast => Or.inr ⟨hstuck, hon hlast⟩
  · refine goOn_ensures hg hacc hd hq₂ fun _ => Or.inl ?_
    simpa using hsome

end Stepping

end Parse

end IncrementalLR
