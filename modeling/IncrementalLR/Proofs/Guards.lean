/-
**Plain runs under any tuning.**

A parse that follows one stack does what the plain run of it does, action by action, until a guard
of its tuning interferes.  One step of the parse is as many actions of the run as it takes to get
past a position, so the length of what is left of the run bounds the steps.  Since the run itself
does not depend on the tuning, documents that it accepts get the same tree under all tunings whose
guards it does not trigger.

Main definitions:

* `Parse.OnPlain` — a parse in the middle of a plain run of its only stack;
* `Parse.GetsPast`, `Parse.EndsThere` — what all actions at a position come to.

Main results:

* `Parse.actOn_plain`, `Parse.drainF_plain`, `Parse.step_plain` — one action, all actions at a
  position, and one step;
* `Parse.finish_tuned` — **an accepted document gets the same tree under every tuning** whose guards
  are not triggered.
-/

import IncrementalLR.Proofs.Deterministic
import IncrementalLR.Proofs.PlainRuns

set_option relaxedAutoImplicit false
set_option autoImplicit false

namespace IncrementalLR

namespace ParseM

variable {α β : Type} {q q' : Parse} {E : Failure → Prop}

/-- A step that was done began with its first part. -/
theorem exists_of_run_bind {m : ParseM α} {f : α → ParseM β} {b : β}
    (h : (m >>= f).run q = (.ok b, q')) :
    ∃ a q₁, m.run q = (.ok a, q₁) ∧ (f a).run q₁ = (.ok b, q') := by
  rw [run_bind] at h
  rcases hrun : m.run q with ⟨e | a, q₁⟩
  · rw [hrun] at h
    cases h
  · rw [hrun] at h
    exact ⟨a, q₁, rfl, h⟩

/-- A step goes on after its first part. -/
theorem run_bind_of {m : ParseM α} {a : α} (h : m.run q = (.ok a, q')) (f : α → ParseM β) :
    (m >>= f).run q = (f a).run q' := by
  rw [run_bind, h]
  rfl

theorem run_get_bind {f : Parse → ParseM β} : (get >>= f).run q = (f q).run q := rfl

theorem run_modify_bind {g : Parse → Parse} {f : PUnit → ParseM β} :
    (modify g >>= f).run q = (f ⟨⟩).run (g q) := rfl

theorem ensures_of_run {m : ParseM α} {a : α} (h : m.run q = (.ok a, q')) {Q : α → Parse → Prop} :
    Ensures E m q Q ↔ Q a q' := by
  rw [Ensures, h]

end ParseM

/-! ### Parsers without host code -/

theorem Group.scanF_tuned (g : Group) (grammar : Grammar) (t : Tuning) (fuel state : Nat)
    (current : Option Nat) :
    g.scanF { grammar with tuning := t } fuel state current =
      g.scanF grammar fuel state current := by
  have haccepted : ∀ state current, g.acceptedTerm { grammar with tuning := t } state current =
      g.acceptedTerm grammar state current := fun _ _ => rfl
  induction fuel generalizing state current with
  | zero => rfl
  | succ fuel ih =>
      rw [scanF, scanF, haccepted]
      simp only [ih]

/-- Neither the token automaton nor keyword tables ask for the tuning. -/
theorem Parser.IsTabular.ignoresTuning {p : Parser} (hp : p.IsTabular)
    (htracker : p.tracker = none) : p.IgnoresTuning where
  tokenizers := by
    intro x hx v t
    obtain ⟨g, rfl⟩ := hp.groups x hx
    exact congrArg Scan.place
      (funext fun _ => funext fun _ => funext fun _ => g.scanF_tuned v.grammar t _ _ _)
  specializers := by
    intro x hx text v t
    obtain ⟨term, entries, rfl⟩ := hp.keywords x hx
    rfl
  tracker := by
    intro x hx
    rw [htracker] at hx
    cases hx

namespace Parse

open ParseM

section Following

variable {q q' qe : Parse} {s e : Stack} {n pos : Nat}

/-- A stack that is not too deep is not cut. -/
theorem cutDepth_shallow (hshallow : isShallow q.parser.tuning s = true)
    (hlimit : 0 < q.env.limit) : (cutDepth s).run q = (.ok s, q) := by
  obtain ⟨limit, hlimit⟩ := Nat.exists_eq_succ_of_ne_zero (Nat.ne_of_gt hlimit)
  rw [isShallow, Bool.or_eq_true, decide_eq_true_eq, decide_eq_true_eq] at hshallow
  have hparser : ParseM.parser.run q = (.ok q.parser, q) := rfl
  rw [cutDepth, run_bind_of hparser]
  by_cases hdepth : q.parser.tuning.cutDepth ≤ s.depth
  · have hkept : s.leaveWhileF q.parser (fun s => q.parser.tuning.cutTo < s.depth) q.env.limit
        q.env = some (s, q.env) := by
      rw [hlimit, Stack.leaveWhileF, if_neg]
      rw [decide_eq_true_eq]
      omega
    rw [if_pos hdepth, onEnvLimited, run_get_bind, hkept]
    rfl
  · rw [if_neg hdepth]
    rfl

/-- What an action of a plain run is for a parse. -/
def Plain.advanced? : Plain → Option Advanced
  | .moved s _ => some ⟨true, s, [], []⟩
  | .stuck s => some ⟨false, s, [], []⟩
  | .torn => none

/-- Whether a stack had to ask for an action. -/
def Plain.asked : Plain → Bool
  | .moved _ asked => asked
  | .stuck _ | .torn => true

/-- One action of a parse is one of the plain run, unless the stack is cut or has several. -/
theorem actOn_plain {x : Plain} {a : Advanced} (hstop : q.stoppedAt = none)
    (hlimit : 0 < q.env.limit) (hrun : (actPlain s).run q = (.ok x, q'))
    (hshallow : x.asked = true → isShallow q.parser.tuning s = true) (ha : x.advanced? = some a) :
    (actOn s true).run { q with memo := { q.memo with main := none } } = (.ok a, q') := by
  rw [actPlain, run_modify_bind, run_get_bind] at hrun
  rw [actOn, run_get_bind, if_neg (by rw [hstop]; exact Bool.false_ne_true)]
  obtain ⟨taken, q₁, htaken, hrun⟩ := exists_of_run_bind hrun
  rw [run_bind_of htaken]
  have hkept := (takeOver_keeps s).of_run htaken
  cases taken with
  | some s' =>
      cases hrun
      exact Option.some.inj ha ▸ rfl
  | none =>
      dsimp only at hrun ⊢
      split at hrun
      · rename_i hdefault
        rw [if_pos hdefault]
        cases hrun
        exact Option.some.inj ha ▸ rfl
      · rename_i hdefault
        rw [if_neg hdefault]
        have hcut : isShallow q₁.parser.tuning s = true → (cutDepth s).run q₁ = (.ok s, q₁) :=
          fun h => cutDepth_shallow h (by rw [hkept.env.limit]; exact hlimit)
        rw [hkept.parser] at hcut
        obtain ⟨found, q₂, hfound, hrun⟩ := exists_of_run_bind hrun
        rw [run_get_bind] at hrun
        split at hrun
        · rename_i hnone
          cases hrun
          rw [run_bind_of (hcut (hshallow rfl)), run_bind_of hfound, run_get_bind, hnone]
          exact Option.some.inj ha ▸ rfl
        · rename_i b hone
          cases hrun
          rw [run_bind_of (hcut (hshallow rfl)), run_bind_of hfound, run_get_bind, hone]
          exact Option.some.inj ha ▸ rfl
        · cases hrun
          cases ha

/-- A stack whose run to `e` had `n` actions left got past a position, and its run goes on from
there: fewer actions are left if the stack did not stand past the position. -/
def GetsPast (pos n : Nat) (s e : Stack) (qe : Parse) (dr : Drained) (q' : Parse) : Prop :=
  ∃ m s', dr = { ahead := [s'] } ∧ runPlain m s' q' = some (e, qe) ∧
    sparesPlain m pos s' q' = true ∧ pos < s'.pos ∧ m ≤ n ∧ (s.pos ≤ pos → m < n)

/-- A run has ended at a position. -/
def EndsThere (e : Stack) (qe : Parse) (dr : Drained) (q' : Parse) : Prop :=
  ∃ term stop, dr = { stuck := [⟨e, term, stop⟩] } ∧ q' = qe

/-- All actions of the only stack at a position are those of the plain run, unless a guard is
triggered. -/
theorem drainF_plain (hrun : runPlain n s q = some (e, qe))
    (hspared : sparesPlain n pos s q = true) (hstop : q.stoppedAt = none)
    (hlimit : 0 < q.env.limit) {fuel : Nat} (hfuel : n + 1 ≤ fuel) :
    Ensures (fun _ => False) (drainF pos fuel [s] {}) q fun dr q' =>
      q.Keeps q' ∧ (GetsPast pos n s e qe dr q' ∨ EndsThere e qe dr q') := by
  induction n generalizing s q fuel with
  | zero => cases hrun
  | succ n ih =>
      by_cases hpos : pos < s.pos
      · refine (drainF_past hpos (by omega) q).mono ?_
        rintro _ _ ⟨rfl, rfl⟩
        exact ⟨⟨rfl, ⟨rfl, rfl⟩, rfl, rfl, rfl⟩, Or.inl ⟨n + 1, s, rfl, hrun, hspared, hpos,
          Nat.le_refl _, fun hle => absurd hpos (Nat.not_lt.2 hle)⟩⟩
      · obtain ⟨fuel, rfl⟩ := Nat.exists_eq_add_of_le' (Nat.le_trans (Nat.le_add_left 1 _) hfuel)
        rw [runPlain] at hrun
        rw [sparesPlain, Nat.max_eq_left (Nat.not_lt.1 hpos), Bool.and_eq_true] at hspared
        obtain ⟨-, hspared⟩ := hspared
        rw [drainF, ensures_bind, ensures_modify, if_neg hpos]
        rcases hact : (actPlain s).run q with ⟨_ | x, q₁⟩
        · rw [hact] at hrun
          cases hrun
        · rw [hact] at hrun hspared
          have hkept := (actPlain_keeps s).of_run hact
          cases x with
          | moved s' asked =>
              rw [Bool.and_eq_true, Bool.or_eq_true, Bool.not_eq_true'] at hspared
              obtain ⟨hshallow, hspared⟩ := hspared
              have hdone := actOn_plain hstop hlimit hact
                (fun hasked => hshallow.resolve_left (by rw [show asked = true from hasked]; simp))
                rfl
              rw [ensures_bind, ensures_of_run hdone]
              have hrest := ih hrun hspared (hkept.stoppedAt.trans hstop)
                (by rw [hkept.env.limit]; exact hlimit) (show n + 1 ≤ fuel by omega)
              refine hrest.mono ?_
              rintro dr q' ⟨hkept', hgets | hends⟩
              · obtain ⟨m, s'', rfl, hrun', hspared', hlt, hle, -⟩ := hgets
                exact ⟨hkept.trans hkept', Or.inl ⟨m, s'', rfl, hrun', hspared', hlt, by omega,
                  fun _ => by omega⟩⟩
              · exact ⟨hkept.trans hkept', Or.inr hends⟩
          | stuck e' =>
              have hdone := actOn_plain hstop hlimit hact (fun _ => hspared) rfl
              obtain ⟨rfl, rfl⟩ := Prod.mk.inj (Option.some.inj hrun)
              rw [ensures_bind, ensures_of_run hdone]
              simp only [Bool.false_eq_true, if_false, List.append_nil]
              rw [ensures_bind, ensures_get, drainF]
              · exact ⟨hkept, Or.inr ⟨_, _, rfl, rfl⟩⟩
              · omega
          | torn => cases hrun

/-! ### Steps of a parse -/

/-- A parse in the middle of a plain run of its only stack, with `n` actions at most left that end
at `e` and come to a result, and trigger no guard. -/
structure OnPlain (n : Nat) (s e : Stack) (result : Except Failure Tree) (q : Parse) : Prop where
  ignores : q.parser.IgnoresTuning
  live : q.live = [s]
  parsedPos : q.parsedPos = s.pos
  stoppedAt : q.stoppedAt = none
  recovering : q.recovering = 0
  unfinished : q.result = none
  limit : n + 2 ≤ q.env.limit
  count : q.env.watch.count ≤ q.parser.tuning.maxLeftAssociativeReductionCount
  runs : q.RunsTo n s e result
  spared : sparesPlain n q.parsedPos s q = true

/-- A parse is like itself with other stacks. -/
theorem alike_setLive (hp : q.parser.IgnoresTuning) (live : List Stack) (parsedPos : Nat) :
    q.Alike { q with live, parsedPos } :=
  ⟨hp, q.parser.tuning, q.env, live, parsedPos, ⟨q.env.watch, rfl, fun _ => rfl⟩, rfl⟩

/-- The only stack is not fast-forwarded unless big reductions were repeated too often. -/
theorem fastForward_plain
    (hcount : q.env.watch.count ≤ q.parser.tuning.maxLeftAssociativeReductionCount) :
    (fastForward [s]).run q = (.ok [s], q) := by
  rw [fastForward, run_get_bind]
  dsimp only
  rw [if_neg (Nat.not_lt.2 hcount)]
  rfl

/-- A run that triggers no guard once its stack is past a position triggers none from there on, and
the repetitions so far are no reason to leave rules. -/
theorem sparesPlain_past (h : sparesPlain (n + 1) pos s q = true) (hpos : pos < s.pos) :
    q.env.watch.count ≤ q.parser.tuning.maxLeftAssociativeReductionCount ∧
      sparesPlain (n + 1) s.pos s q = true := by
  rw [sparesPlain, Bool.and_eq_true, Bool.or_eq_true, decide_eq_true_eq, decide_eq_true_eq,
    Nat.max_eq_right (Nat.le_of_lt hpos)] at h
  obtain ⟨hcount, hrest⟩ := h
  refine ⟨hcount.resolve_left (Nat.not_le.2 hpos), ?_⟩
  rw [sparesPlain, decide_eq_true (Nat.le_refl s.pos), Bool.true_or, Bool.true_and, Nat.max_self]
  exact hrest

variable {result : Except Failure Tree}

/-- A parse whose only stack got past a position is on with its run. -/
theorem OnPlain.getsPast {dr : Drained} (h : q.OnPlain n s e result)
    (hkept : Keeps { q with live := [] } q') (hgets : GetsPast q.parsedPos n s e qe dr q')
    (hdone : qe.isDone e = true) (hresult : ((toTree e).run qe).1 = result) :
    ∃ m s', dr = { ahead := [s'] } ∧ m < n ∧
      OnPlain m s' e result { q' with parsedPos := s'.pos, live := [s'] } := by
  obtain ⟨m, s', rfl, hrun, hspared, hpos, hle, hless⟩ := hgets
  have hparser : q'.parser = q.parser := hkept.parser
  have hlimit : q'.env.limit = q.env.limit := hkept.env.limit
  have hbound := h.limit
  have hless := hless (Nat.le_of_eq h.parsedPos.symm)
  have hignores : q'.parser.IgnoresTuning := hparser ▸ h.ignores
  have hruns : q'.RunsTo m s' e result := ⟨qe, hrun, hdone, hresult⟩
  have halike := alike_setLive hignores [s'] s'.pos
  cases m with
  | zero => cases hrun
  | succ m =>
      obtain ⟨hcount, hspared⟩ := sparesPlain_past hspared hpos
      exact ⟨m + 1, s', rfl, hless, hignores, rfl, rfl, hkept.stoppedAt.trans h.stoppedAt,
        hkept.recovering.trans h.recovering, hkept.result.trans h.unfinished,
        by dsimp only; omega, hcount, hruns.alike halike,
        (sparesPlain_alike halike rfl _ _ _).trans hspared⟩

/-- One step of a parse in the middle of a plain run: it goes on with the run, or the run has ended
and the parse with it. -/
theorem step_plain (h : q.OnPlain n s e result) :
    Ensures (fun f => result = .error f) step q fun tree q' =>
      match tree with
      | some t => result = .ok t
      | none => ∃ m, m < n ∧ ∃ s', q'.OnPlain m s' e result := by
  have halike := alike_setLive h.ignores [] q.parsedPos
  obtain ⟨qe, hrun, hdone, hresult⟩ := h.runs.alike halike
  have hspared := (sparesPlain_alike halike rfl n q.parsedPos s).trans h.spared
  have hlimit := h.limit
  have hforward : (fastForward [s]).run { q with live := [] } = (.ok [s], { q with live := [] }) :=
    fastForward_plain h.count
  rw [step, ensures_bind, ensures_get]
  dsimp only
  rw [ensures_bind, ensures_set, h.live, ensures_bind, ensures_of_run hforward]
  refine ((drainF_plain hrun hspared h.stoppedAt (by dsimp only; omega) (by omega)).weaken
    fun _ hfalse => hfalse.elim).bind ?_
  rintro dr q' ⟨hkept, hgets | hends⟩
  · obtain ⟨m, s', rfl, hless, hon⟩ := h.getsPast hkept hgets hdone hresult
    simp only [List.isEmpty_cons, Bool.false_eq_true, if_false]
    refine (goOn_single _ (hkept.recovering.trans h.recovering)).mono ?_
    rintro _ _ ⟨rfl, rfl⟩
    exact ⟨m, hless, s', hon⟩
  · obtain ⟨term, stop, rfl, rfl⟩ := hends
    have hend : q.isDone e = true := (hkept.isDone e).symm.trans hdone
    have hbest : bestStack? q.isDone [e] = some e := by
      simp [bestStack?, hend]
    simp only [List.isEmpty_nil, if_true, List.map_cons, List.map_nil, hbest]
    rw [ensures_bind, Ensures, ← hresult]
    rcases (toTree e).run q' with ⟨f | t, q''⟩
    · rfl
    · rfl

/-- All steps of a parse in the middle of a plain run. -/
theorem finishF_plain (h : q.OnPlain n s e result) {fuel : Nat} (hfuel : n < fuel) :
    (finishF fuel q).1 = result := by
  refine finishF_of_steps (fun n q => ∃ s, q.OnPlain n s e result) ?_ ?_ ⟨s, h⟩ hfuel
  · rintro n q ⟨s, h⟩
    exact h.unfinished
  · rintro n q ⟨s, h⟩
    exact step_plain h

end Following

/-- What a parse starts with does not depend on the tuning, and no guard is triggered yet. -/
theorem start_plain {p : Parser} {d : Document} {fragments : List Fragment} {ranges : List Span}
    {epoch limit : Nat} {q : Parse} (hp : p.IgnoresTuning)
    (hstart : start p d fragments ranges epoch limit = .ok q) (t : Tuning) :
    ∃ q', start (p.tuned t) d fragments ranges epoch limit = .ok q' ∧ q.Alike q' ∧
      ∀ n s e result, q.live = [s] → n + 2 ≤ limit → q'.RunsTo n s e result →
        q'.sparedPlain n = true → q'.OnPlain n s e result := by
  rw [start] at hstart ⊢
  split at hstart
  · cases hstart
  · rename_i hok
    obtain rfl := Except.ok.inj hstart
    rw [if_neg hok]
    refine ⟨_, rfl, ⟨hp, t, _, _, _, ⟨{}, rfl, fun _ => rfl⟩, rfl⟩, ?_⟩
    intro n s e result hlive hlimit hruns hspared
    obtain rfl := (List.cons.inj hlive).1
    exact {
      ignores := ⟨hp.tokenizers, hp.specializers, hp.tracker⟩
      live := rfl
      parsedPos := rfl
      stoppedAt := rfl
      recovering := rfl
      unfinished := rfl
      limit := hlimit
      count := Nat.zero_le _
      runs := hruns
      spared := hspared }

/-! ### A parser for one text -/

/-- A parser for the text `abc`: the `a` is reduced to a node of type 2, and that and the rest to
one of type 3, which error recovery may do early. -/
def chainParser : Parser :=
  let states : List ParseState :=
    [{ actions := [(6, .shift 1)], tokenizerMask := 1 },
      { defaultReduce := some (.reduce 2 1), tokenizerMask := 1 },
      { actions := [(7, .shift 3)], forcedReduce := some (.reduce 3 1), tokenizerMask := 1 },
      { actions := [(8, .shift 4)], forcedReduce := some (.reduce 3 2), tokenizerMask := 1 },
      { defaultReduce := some (.reduce 3 3), tokenizerMask := 1 },
      { accepting := true, tokenizerMask := 1 }]
  { pairParser with
    tables :=
      ⟨(layOutStates states {}).1.toArray, (layOutStates states {}).2.slots,
        (gotoSlots [(0, 2, 2), (0, 3, 5)]).toArray⟩,
    set :=
      ⟨#[{ epoch := 1, id := 0, name := "⚠", isError := true },
        { epoch := 1, id := 1, name := "Top", isTop := true }, { epoch := 1, id := 2, name := "X" },
        { epoch := 1, id := 3, name := "Pair" }]⟩,
    maxTerm := 8,
    minRepeat := 9,
    tokenizers := #[.ofGroup ⟨#[1, 3, 3, 97, 98, 12, 98, 99, 17, 99, 100, 22, 1, 17, 0, 6, 1,
      1, 22, 0, 7, 1, 1, 27, 0, 8, 1], 0⟩] }

/-- The text `abc`. -/
def chainText : Document := { bytes := #[97, 98, 99] }

/-- A tuning whose guards the text almost triggers. -/
def narrowTuning : Tuning where
  cutDepth := 7
  cutTo := 0
  minBigReduction := 0
  maxLeftAssociativeReductionCount := 1
  recoveryDistance := 0
  maxStackCount := 0

/-- A tuning under which every stack that holds something is cut. -/
def cuttingTuning : Tuning where
  cutDepth := 3
  cutTo := 0

/-- A tuning under which one reduction is one too many. -/
def forwardingTuning : Tuning where
  minBigReduction := 0
  maxLeftAssociativeReductionCount := 0

theorem chainParser_ignoresTuning : chainParser.IgnoresTuning := by
  refine Parser.IsTabular.ignoresTuning ⟨?_, ?_⟩ rfl
  · intro t ht
    obtain rfl := List.mem_singleton.1 (Array.mem_toList_iff.2 ht)
    exact ⟨_, rfl⟩
  · intro x hx
    cases hx

/-- **An accepted document gets the same tree under every tuning.**  If the plain run of a parse
that has just started is accepted, the parse comes to the tree of that run under all tunings whose
guards the run does not trigger, provided that no host code asks for the tuning.

The bound on loops has to be past the length of the run. -/
theorem finish_tuned {p : Parser} {d : Document} {fragments : List Fragment} {ranges : List Span}
    {epoch limit n : Nat} {q : Parse} (hp : p.IgnoresTuning)
    (hstart : start p d fragments ranges epoch limit = .ok q) (haccepts : q.acceptsPlain n = true)
    (hlimit : n + 2 ≤ limit) (t : Tuning) :
    ∃ q', start (p.tuned t) d fragments ranges epoch limit = .ok q' ∧
      (q'.sparedPlain n = true → q'.finish.1 = q.treePlain n) := by
  obtain ⟨s, e, hlive, hruns⟩ := exists_runsTo haccepts
  obtain ⟨q', hstart', halike, hon⟩ := start_plain hp hstart t
  refine ⟨q', hstart', fun hspared => ?_⟩
  have hon := hon n s e _ hlive hlimit (hruns.alike halike) hspared
  exact finishF_plain hon (Nat.lt_of_lt_of_le (by omega) hon.limit)

/-- The text `abc` gets its tree under a tuning whose guards it almost triggers. -/
theorem finish_tuned_chain :
    ∃ q q', start chainParser chainText [] [] 1 20 = .ok q ∧ q.acceptsPlain 6 = true ∧
      start (chainParser.tuned narrowTuning) chainText [] [] 1 20 = .ok q' ∧
      q'.sparedPlain 6 = true ∧ q'.finish.1 = q.treePlain 6 ∧
      (q.treePlain 6).toOption.isSome = true := by
  have heval : (start chainParser chainText [] [] 1 20).toOption.any (fun q =>
      q.acceptsPlain 6 && (q.treePlain 6).toOption.isSome) = true := by decide +kernel
  obtain ⟨q, hstart, hq⟩ := exists_ok_of_any heval
  rw [Bool.and_eq_true] at hq
  have hspared : (start (chainParser.tuned narrowTuning) chainText [] [] 1 20).toOption.any
      (fun q => q.sparedPlain 6) = true := by decide +kernel
  obtain ⟨q₁, hstart₁, hspared⟩ := exists_ok_of_any hspared
  obtain ⟨q', hstart', htree⟩ := finish_tuned chainParser_ignoresTuning hstart hq.1 (by decide)
    narrowTuning
  obtain rfl := Except.ok.inj (hstart₁.symm.trans hstart')
  exact ⟨q, q₁, hstart, hq.1, hstart₁, hspared, htree hspared, hq.2⟩

/-- Although no state has two actions for a token, the text `abc` gets another tree under tunings
whose guards it triggers. -/
theorem finish_guarded :
    (∀ state term stop, (collectActions chainParser.tables state term stop []).length ≤ 1) ∧
      ∃ q, start chainParser chainText [] [] 1 20 = .ok q ∧ q.acceptsPlain 6 = true ∧
        q.finish.1.toOption.isSome = true ∧
        ∀ t ∈ [cuttingTuning, forwardingTuning],
          ∃ q', start (chainParser.tuned t) chainText [] [] 1 20 = .ok q' ∧
            q'.finish.1.toOption.isSome = true ∧ q'.finish.1.toOption ≠ q.finish.1.toOption := by
  refine ⟨Tables.length_collectActions_le (by decide +kernel), ?_⟩
  have heval : (start chainParser chainText [] [] 1 20).toOption.any (fun q =>
      q.acceptsPlain 6 && q.finish.1.toOption.isSome &&
        [cuttingTuning, forwardingTuning].all fun t =>
          (start (chainParser.tuned t) chainText [] [] 1 20).toOption.any fun q' =>
            q'.finish.1.toOption.isSome && decide (q'.finish.1.toOption ≠ q.finish.1.toOption)) =
      true := by decide +kernel
  obtain ⟨q, hstart, hq⟩ := exists_ok_of_any heval
  rw [Bool.and_eq_true, Bool.and_eq_true, List.all_eq_true] at hq
  refine ⟨q, hstart, hq.1.1, hq.1.2, fun t ht => ?_⟩
  obtain ⟨q', hstart', hq'⟩ := exists_ok_of_any (hq.2 t ht)
  rw [Bool.and_eq_true, decide_eq_true_eq] at hq'
  exact ⟨q', hstart', hq'⟩

end Parse

end IncrementalLR
