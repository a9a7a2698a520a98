/-
**What the parts of a step do.**

A step takes all stacks past the lowest position, splits and repairs them on the way, and drops some.
Here each part of a step gets one statement: which stacks it leaves, that they are reached by moves,
and where they stand.  No part loses the last stack, and none leaves a stack behind the position.

Main definitions:

* `Parse.Past`, `Stuck.At`, `Recovered.Sound` — stacks past a position, stacks that are stuck at it,
  and what recovery has found.

Main results:

* `Parse.actOn_ensures` — one action of a stack;
* `Parse.recover_ensures` — **recovery finds a stack to go on or to finish with**.
-/

import IncrementalLR.Parse.Advance
import IncrementalLR.Proofs.Rejections
import IncrementalLR.Proofs.Tokens

set_option relaxedAutoImplicit false
set_option autoImplicit false

namespace IncrementalLR

/-! ### Stacks after their actions -/

/-- A stack that a parse in a setting may come to follow. -/
abbrev Stack.Known (g : Setting) (s : Stack) : Prop := s.Reached g .free

namespace Parse

/-- Stacks that are past a position. -/
def Past (g : Setting) (pos : Nat) (l : List Stack) : Prop := ∀ s ∈ l, s.Known g ∧ pos < s.pos

/-- Stacks that are at a position or past it. -/
def AtLeast (g : Setting) (pos : Nat) (l : List Stack) : Prop := ∀ s ∈ l, s.Known g ∧ pos ≤ s.pos

theorem Past.append {g : Setting} {pos : Nat} {l l' : List Stack} (h : Past g pos l)
    (h' : Past g pos l') : Past g pos (l ++ l') := by
  intro s hs
  rcases List.mem_append.1 hs with hs | hs
  · exact h s hs
  · exact h' s hs

theorem AtLeast.append {g : Setting} {pos : Nat} {l l' : List Stack} (h : AtLeast g pos l)
    (h' : AtLeast g pos l') : AtLeast g pos (l ++ l') := by
  intro s hs
  rcases List.mem_append.1 hs with hs | hs
  · exact h s hs
  · exact h' s hs

theorem mem_pushStack {s x : Stack} {l : List Stack} (h : x ∈ pushStack s l) : x = s ∨ x ∈ l := by
  induction l with
  | nil => exact Or.inl (List.mem_singleton.1 h)
  | cons other rest ih =>
      rw [pushStack] at h
      split at h
      · rcases List.mem_cons.1 h with h | h
        · split at h
          · exact Or.inl h
          · exact Or.inr (h ▸ List.mem_cons_self)
        · exact Or.inr (List.mem_cons_of_mem _ h)
      · rcases List.mem_cons.1 h with h | h
        · exact Or.inr (h ▸ List.mem_cons_self)
        · rcases ih h with h | h
          · exact Or.inl h
          · exact Or.inr (List.mem_cons_of_mem _ h)

theorem pushStack_ne_nil (s : Stack) (l : List Stack) : pushStack s l ≠ [] := by
  cases l with
  | nil => simp [pushStack]
  | cons other rest =>
      rw [pushStack]
      split <;> simp

theorem Past.push {g : Setting} {pos : Nat} {s : Stack} {l : List Stack} (h : Past g pos l)
    (hs : s.Known g) (hpos : pos < s.pos) : Past g pos (pushStack s l) := by
  intro x hx
  rcases mem_pushStack hx with rfl | hx
  · exact ⟨hs, hpos⟩
  · exact h x hx

/-- What is known after one action of a stack at a position: a stack that did not move is still
there. -/
structure Advanced.From (g : Setting) (pos : Nat) (a : Advanced) : Prop where
  stack : a.stack.Known g
  le_pos : pos ≤ a.stack.pos
  stays : a.moved = false → a.stack.pos = pos
  ahead : Past g pos a.ahead
  level : AtLeast g pos a.level

section Acting

open ParseM

variable {g : Setting} {p₀ q : Parse} {pos : Nat}

/-- A split changes nothing that is known. -/
theorem known_split {s : Stack} {env : Env} (hs : s.Known g) (henv : env.Follows g) :
    (s.split env).1.Known g ∧ (s.split env).2.Follows g :=
  ⟨hs.move (.split s _), henv.start, henv.stream⟩

/-- An action on a token at the position of a stack. -/
theorem known_apply (hg : g.Fits) {s : Stack} {env : Env} {a : TokenAction} {start : Nat}
    (hs : s.Known g) (henv : env.Follows g) (ha : a.At g s.state s.pos)
    (hstart : g.IsWhole → start = s.pos) :
    (s.apply g.parser a.word a.term start a.stop env).1.Known g ∧
      s.pos ≤ (s.apply g.parser a.word a.term start a.stop env).1.pos := by
  have hmove : Stack.Move g .free s (s.apply g.parser a.word a.term start a.stop env).1 := by
    unfold Stack.apply
    split
    · rename_i hword
      exact .reduce henv.start (Or.inr ⟨hword, _, ha.given⟩) trivial
    · rename_i hword
      have hoffer : s.Offered g a.word a.term start a.stop :=
        ⟨ha.given, ha.le_stop, ha.stop_le, hstart, ha.nonempty⟩
      exact .shift hoffer (by simpa using hword) trivial
  exact ⟨hs.move hmove, (hmove.pos_le (hs.pos_le hg).2).1⟩

/-- Several actions of a stack, each but the last on a copy. -/
theorem applyActions_from (hg : g.Fits) {start : Nat} {fork : Bool} (actions : List TokenAction)
    {state : Nat} (hactions : ∀ a ∈ actions, a.At g state pos) (hstart : g.IsWhole → start = pos)
    {a : Advanced} {env : Env} (ha : a.From g pos) (hpos : a.stack.pos = pos)
    (hstate : a.stack.state = state) (henv : env.Follows g) :
    (applyActions g.parser start fork actions a env).1.From g pos ∧
      (applyActions g.parser start fork actions a env).2.Follows g := by
  induction actions generalizing a env with
  | nil => exact ⟨ha, henv⟩
  | cons action rest ih =>
      have haction := hactions action List.mem_cons_self
      have hrest : ∀ b ∈ rest, b.At g state pos := fun b hb =>
        hactions b (List.mem_cons_of_mem _ hb)
      rw [applyActions]
      split
      · obtain ⟨hknown, hle⟩ :=
          known_apply hg ha.stack henv (hpos.symm ▸ hstate.symm ▸ haction) (hpos.symm ▸ hstart)
        refine ⟨⟨hknown, ?_, ?_, ha.ahead, ha.level⟩, Stack.follows_apply _ _ _ _ _ _ henv⟩
        · exact Nat.le_trans (Nat.le_of_eq hpos.symm) hle
        · intro hmoved
          cases hmoved
      · obtain ⟨hwhole, hsplit⟩ := known_split ha.stack henv
        have hfreeze : (a.stack.split env).1.pos = pos := (Stack.pos_split ..).trans hpos
        have hsame : (a.stack.split env).1.state = state := (Stack.state_split ..).trans hstate
        obtain ⟨hknown, hle⟩ := known_apply hg hwhole hsplit
          (hfreeze.symm ▸ hsame.symm ▸ haction) (hfreeze.symm ▸ hstart)
        refine ih hrest ?_ ?_ ?_ (Stack.follows_apply _ _ _ _ _ _ hsplit)
        · split
          · rename_i hlt
            refine ⟨hwhole, Nat.le_of_eq hfreeze.symm, fun _ => hfreeze, ha.ahead.append ?_,
              ha.level⟩
            intro x hx
            rw [List.mem_singleton.1 hx]
            exact ⟨hknown, by omega⟩
          · refine ⟨hwhole, Nat.le_of_eq hfreeze.symm, fun _ => hfreeze, ha.ahead,
              ha.level.append ?_⟩
            intro x hx
            rw [List.mem_singleton.1 hx]
            exact ⟨hknown, by omega⟩
        · split <;> exact hfreeze
        · split <;> exact hsame

/-- Leaving rules stays where it is. -/
theorem known_leaveWhileF {again : Stack → Bool} (fuel : Nat) {s : Stack} {env : Env}
    {r : Stack × Env} (hs : s.Known g) (henv : env.Follows g)
    (h : s.leaveWhileF g.parser again fuel env = some r) :
    r.1.Known g ∧ r.1.pos = s.pos ∧ r.2.Follows g := by
  induction fuel generalizing s env with
  | zero => cases h
  | succ fuel ih =>
      rw [Stack.leaveWhileF] at h
      split at h
      · rcases hr : s.leaveRule g.parser env with ⟨_ | _, r'⟩
        · obtain ⟨-, rfl⟩ := Stack.leaveRule_eq_false hr
          rw [hr] at h
          obtain rfl := Option.some.inj h
          exact ⟨hs, rfl, henv⟩
        · rw [hr] at h
          obtain ⟨h₁, h₂, h₃⟩ :=
            ih (hs.move (.leave henv.start hr)) (Stack.follows_leaveRule henv hr) h
          exact ⟨h₁, h₂.trans (Stack.pos_leaveRule hr), h₃⟩
      · cases h
        exact ⟨hs, rfl, henv⟩

theorem cutDepth_ensures {s : Stack} (hs : s.Known g) (hq : q.Along g p₀) :
    Ensures g.parser.MayFail (cutDepth s) q fun s' q' =>
      q'.Along g p₀ ∧ s'.Known g ∧ s'.pos = s.pos := by
  unfold cutDepth
  rw [ensures_bind, ensures_ofParser, hq.parser]
  refine ensures_ite (fun _ => ?_) (fun _ => ⟨hq, hs, rfl⟩)
  refine ensures_onEnvLimited g.parser.mayFail_limit fun r hr => ?_
  obtain ⟨h₁, h₂, h₃⟩ := known_leaveWhileF _ hs hq.env hr
  exact ⟨hq.withEnv h₃, h₁, h₂⟩

/-- Without fragments nothing is taken over. -/
theorem takeOver_ensures {s : Stack} (hq : q.Along g p₀) :
    Ensures g.parser.MayFail (takeOver s) q fun found q' => found = none ∧ q' = q := by
  unfold takeOver
  rw [ensures_bind, ensures_get, hq.reuse]
  exact ⟨rfl, rfl⟩

/-- One action of a stack.  A token that the stack is stuck at is the token at its position. -/
theorem actOn_ensures (hg : g.Fits) (hacc : g.parser.OnlyAccepts) {s : Stack} {fork : Bool}
    (hs : s.Known g) (hq : q.Along g p₀) :
    Ensures g.parser.MayFail (actOn s fork) q fun a q' =>
      q'.Along g p₀ ∧ a.From g s.pos ∧
        (q.memo.main = none → ∀ t, q'.memo.main = some t → t.ReadAt g s.pos) := by
  have hnone : ∀ {q' : Parse}, q'.memo.main = q.memo.main → q.memo.main = none →
      ∀ t, q'.memo.main = some t → t.ReadAt g s.pos := by
    intro q' h₁ h₂ t ht
    rw [h₁, h₂] at ht
    cases ht
  have halone : ∀ {s' : Stack}, s'.Known g → s'.pos = s.pos → ∀ moved,
      (⟨moved, s', [], []⟩ : Advanced).From g s.pos := by
    intro s' hs' hpos moved
    exact ⟨hs', Nat.le_of_eq hpos.symm, fun _ => hpos, by simp [Past], by simp [AtLeast]⟩
  unfold actOn
  rw [ensures_bind, ensures_get]
  refine ensures_ite (fun _ => ?_) (fun _ => ?_)
  · rw [hq.parser, ensures_onEnv]
    rcases hr : s.leaveRule g.parser q.env with ⟨_ | _, r⟩
    · obtain ⟨-, rfl⟩ := Stack.leaveRule_eq_false hr
      exact ⟨hq.withEnv hq.env, halone hs rfl _, hnone rfl⟩
    · exact ⟨hq.withEnv (Stack.follows_leaveRule hq.env hr),
        halone (hs.move (.leave hq.env.start hr)) (Stack.pos_leaveRule hr) _, hnone rfl⟩
  · refine (takeOver_ensures hq).bind ?_
    rintro _ _ ⟨rfl, rfl⟩
    refine ensures_ite (fun hdefault => ?_) (fun _ => ?_)
    · rw [hq.parser] at hdefault ⊢
      rw [ensures_bind, ensures_onEnv]
      exact ⟨hq.withEnv (Stack.follows_reduce _ _ _ hq.env),
        halone (hs.move (.reduce hq.env.start (Or.inl ⟨hdefault, rfl⟩) trivial)) (by simp) _,
        hnone rfl⟩
    · refine (cutDepth_ensures hs hq).bind ?_
      rintro s₁ q₁ ⟨hq₁, hs₁, hpos₁⟩
      refine (actionsFor_ensures hg hacc hs₁ hq₁).bind ?_
      rintro ⟨actions, s₂⟩ q₂ ⟨hq₂, hs₂, hpos₂, hactions, hmain⟩
      dsimp only at hs₂ hpos₂ hactions
      rw [hpos₁] at hpos₂ hactions hmain
      rw [hq.parser, ensures_bind, ensures_get, ensures_onEnv]
      have hstart : g.IsWhole → (q₂.memo.main.bind (·.start)).getD s₁.pos = s.pos := by
        intro hw
        cases hm : q₂.memo.main with
        | none => exact hpos₁
        | some t =>
            obtain ⟨a, ha, haw⟩ := (hmain t hm).start
            rw [Option.bind_some, ha, Option.getD_some]
            exact haw hw
      obtain ⟨h₁, h₂⟩ := @applyActions_from g s.pos hg _ fork actions _ hactions hstart _ q₂.env
        (halone hs₂ hpos₂ false) hpos₂ rfl hq₂.env
      exact ⟨hq₂.withEnv h₂, h₁, fun _ => hmain⟩

/-! ### Stacks that go on alone -/

/-- Advancing a stack from a position until it is past it. -/
theorem actUntilPastF_ensures (hg : g.Fits) (hacc : g.parser.OnlyAccepts) (fuel : Nat) {s : Stack}
    {others : List Stack} (hs : s.Known g) (hpos : s.pos = pos) (ho : Past g pos others)
    (hq : q.Along g p₀) :
    Ensures g.parser.MayFail (actUntilPastF pos fuel s others) q fun r q' =>
      q'.Along g p₀ ∧ Past g pos r.2 ∧ (∀ x, r.1 = some x → x.Known g ∧ x.pos = pos) ∧
        (others ≠ [] ∨ r.1 = none → r.2 ≠ []) := by
  induction fuel generalizing s q with
  | zero => exact g.parser.mayFail_limit
  | succ fuel ih =>
      rw [actUntilPastF]
      refine (actOn_ensures hg hacc hs hq).bind ?_
      rintro a q' ⟨hq', ha, -⟩
      rw [hpos] at ha
      refine ensures_ite (fun hmoved => ?_) (fun _ => ensures_ite (fun hlt => ?_) (fun hle => ?_))
      · refine ⟨hq', ho, ?_, ?_⟩
        · rintro x hx
          obtain rfl := Option.some.inj hx
          exact ⟨ha.stack, ha.stays (by simpa using hmoved)⟩
        · rintro (h | h)
          · exact h
          · cases h
      · refine ⟨hq', ho.push ha.stack hlt, ?_, fun _ => pushStack_ne_nil _ _⟩
        intro x hx
        cases hx
      · have hle' := ha.le_pos
        exact ih ha.stack (by omega) hq'

theorem actUntilPast_ensures (hg : g.Fits) (hacc : g.parser.OnlyAccepts) {s : Stack}
    {others : List Stack} (hs : s.Known g) (hpos : s.pos = pos) (ho : Past g pos others)
    (hq : q.Along g p₀) :
    Ensures g.parser.MayFail (actUntilPast s others) q fun r q' =>
      q'.Along g p₀ ∧ Past g pos r.2 ∧ (∀ x, r.1 = some x → x.Known g ∧ x.pos = pos) ∧
        (others ≠ [] ∨ r.1 = none → r.2 ≠ []) := by
  unfold actUntilPast
  rw [ensures_bind, ensures_get, hpos]
  exact actUntilPastF_ensures hg hacc _ hs hpos ho hq

/-! ### Repairs -/

theorem tryForced_ensures (hg : g.Fits) (hacc : g.parser.OnlyAccepts) (count : Nat) {s : Stack}
    {others : List Stack} (hs : s.Known g) (hpos : s.pos = pos) (ho : Past g pos others)
    (hq : q.Along g p₀) :
    Ensures g.parser.MayFail (tryForced g.parser count s others) q fun others' q' =>
      q'.Along g p₀ ∧ Past g pos others' ∧ (others ≠ [] → others' ≠ []) := by
  induction count generalizing s others q with
  | zero => exact ⟨hq, ho, id⟩
  | succ count ih =>
      rw [tryForced, ensures_bind, ensures_onEnv]
      rcases hr : s.leaveRule g.parser q.env with ⟨_ | _, r⟩
      · obtain ⟨-, rfl⟩ := Stack.leaveRule_eq_false hr
        exact ⟨hq.withEnv hq.env, ho, id⟩
      · have hknown : r.1.Known g := hs.move (.leave hq.env.start hr)
        refine (actUntilPast_ensures hg hacc hknown ((Stack.pos_leaveRule hr).trans hpos) ho
          (hq.withEnv (Stack.follows_leaveRule hq.env hr))).bind ?_
        rintro ⟨left, others'⟩ q' ⟨hq', ho', hleft, hne⟩
        cases left with
        | none => exact ⟨hq', ho', fun h => hne (Or.inl h)⟩
        | some x =>
            refine (ih (hleft x rfl).1 (hleft x rfl).2 ho' hq').mono ?_
            rintro others'' q'' ⟨h₁, h₂, h₃⟩
            exact ⟨h₁, h₂, fun h => h₃ (hne (Or.inl h))⟩

theorem tryInserted_ensures (hg : g.Fits) (hacc : g.parser.OnlyAccepts) (inserted : List Stack)
    (hi : ∀ s ∈ inserted, s.Known g ∧ s.pos = pos) {others : List Stack} (ho : Past g pos others)
    (hq : q.Along g p₀) :
    Ensures g.parser.MayFail (tryInserted inserted others) q fun others' q' =>
      q'.Along g p₀ ∧ Past g pos others' ∧ (others ≠ [] → others' ≠ []) := by
  induction inserted generalizing others q with
  | nil => exact ⟨hq, ho, id⟩
  | cons s rest ih =>
      obtain ⟨hs, hpos⟩ := hi s List.mem_cons_self
      rw [tryInserted]
      refine (actUntilPast_ensures hg hacc hs hpos ho hq).bind ?_
      rintro ⟨left, others'⟩ q' ⟨hq', ho', -, hne⟩
      refine (ih (fun x hx => hi x (List.mem_cons_of_mem _ hx)) ho' hq').mono ?_
      rintro others'' q'' ⟨h₁, h₂, h₃⟩
      exact ⟨h₁, h₂, fun h => h₃ (hne (Or.inl h))⟩

theorem known_insertEach {s : Stack} (hs : s.Known g) (chosen : List (Nat × Nat)) {env : Env}
    (henv : env.Follows g) :
    (∀ x ∈ (s.insertEach g.parser chosen env).1, x.Known g ∧ x.pos = s.pos) ∧
      (s.insertEach g.parser chosen env).2.Follows g := by
  induction chosen generalizing env with
  | nil => exact ⟨by simp [Stack.insertEach], henv⟩
  | cons c rest ih =>
      obtain ⟨h₁, h₂⟩ := ih (Stack.follows_insertToken g.parser c.1 c.2 s henv)
      refine ⟨?_, h₂⟩
      intro x hx
      rcases List.mem_cons.1 hx with rfl | hx
      · exact ⟨hs.move .insert, by simp⟩
      · exact h₁ x hx

theorem known_insertTokens {s : Stack} (hs : s.Known g) (next : Nat) {env : Env}
    (henv : env.Follows g) :
    (s.insertTokens g.parser next env).1.Known g ∧
      (s.insertTokens g.parser next env).1.pos = s.pos ∧
      (∀ x ∈ (s.insertTokens g.parser next env).2.1, x.Known g ∧ x.pos = s.pos) ∧
      (s.insertTokens g.parser next env).2.2.Follows g := by
  unfold Stack.insertTokens
  split
  · exact ⟨hs, rfl, by simp, henv⟩
  · split
    · exact ⟨hs, rfl, by simp, henv⟩
    · obtain ⟨hwhole, hsplit⟩ := known_split hs henv
      obtain ⟨h₁, h₂⟩ := known_insertEach hwhole (s.insertions g.parser next) hsplit
      exact ⟨hwhole, by simp, by simpa using h₁, h₂⟩

/-- What recovery has found: stacks past the position, or one to finish with at the end. -/
structure Recovered.Sound (g : Setting) (pos : Nat) (r : Recovered) : Prop where
  ahead : Past g pos r.ahead
  finished : ∀ x, r.finished = some x → x.Known g ∧ x.pos = g.hi

/-- Recovery has found something. -/
def Recovered.IsFound (r : Recovered) : Prop := r.ahead ≠ [] ∨ r.finished.isSome = true

/-- A stack that is stuck at a position, with the end of the token there. -/
structure Stuck.At (g : Setting) (pos : Nat) (s : Stuck) : Prop where
  stack : s.stack.Known g
  pos_eq : s.stack.pos = pos
  le_stop : pos ≤ s.stop
  stop_le : s.stop ≤ g.hi

/-- Every stuck stack is repaired, or may be the one to finish with. -/
theorem repairStack_ensures (hg : g.Fits) (hacc : g.parser.OnlyAccepts) {s : Stack}
    {term stop : Nat} {r : Recovered} (hs : s.Known g) (hpos : s.pos = pos) (hle : pos ≤ stop)
    (hstop : stop ≤ g.hi) (hr : r.Sound g pos) (hq : q.Along g p₀) :
    Ensures g.parser.MayFail (repairStack s term stop r) q fun r' q' =>
      q'.Along g p₀ ∧ r'.Sound g pos ∧ r'.IsFound := by
  unfold repairStack
  rw [ensures_bind, ensures_ofParser, hq.parser]
  obtain ⟨hs₁, henv₁⟩ := known_split hs hq.env
  have hpos₁ : (s.split q.env).1.pos = pos := (Stack.pos_split ..).trans hpos
  rw [ensures_bind, ensures_onEnv]
  generalize s.split q.env = whole at *
  refine (tryForced_ensures hg hacc _ hs₁ hpos₁ hr.ahead (hq.withEnv henv₁)).bind ?_
  rintro ahead₁ q₁ ⟨hq₁, hahead₁, hne₁⟩
  rw [ensures_bind, ensures_onEnv]
  obtain ⟨hs₂, hpos₂, hinserted, henv₂⟩ := known_insertTokens hs₁ term hq₁.env
  generalize whole.1.insertTokens g.parser term q₁.env = inserted at *
  obtain ⟨s₂, inserted, env₂⟩ := inserted
  dsimp only at hs₂ hpos₂ hinserted henv₂ ⊢
  rw [hpos₁] at hpos₂ hinserted
  refine (tryInserted_ensures hg hacc _ hinserted hahead₁ (hq₁.withEnv henv₂)).bind ?_
  rintro ahead₂ q₂ ⟨hq₂, hahead₂, hne₂⟩
  rw [ensures_bind, ensures_get]
  have hstream := hq₂.env.stream
  have hend := hstream.stop
  refine ensures_ite (fun hlt => ?_) (fun hge => ensures_ite (fun hbest => ?_) (fun hbest => ?_))
  · -- Before the end a token, or a character, is left out.
    cases hempty : decide (stop = s₂.pos) with
    | true =>
        have hchar : s₂.pos < q₂.env.stream.charEnd s₂.pos :=
          Stream.lt_charEnd hg.below hstream (by omega)
        have hmove : Stack.Move g .free s₂
            (s₂.deleteToken g.parser errorTerm (q₂.env.stream.charEnd s₂.pos)) :=
          .delete hchar (Stream.charEnd_le hg.below hstream _)
        refine ⟨hq₂, ⟨hahead₂.push (hs₂.move hmove) ?_, hr.finished⟩, Or.inl (pushStack_ne_nil _ _)⟩
        simp only [Stack.pos_deleteToken, if_true]
        omega
    | false =>
        have hne : stop ≠ s₂.pos := by simpa using hempty
        have hmove : Stack.Move g .free s₂ (s₂.deleteToken g.parser term stop) :=
          .delete (by omega) hstop
        refine ⟨hq₂, ⟨hahead₂.push (hs₂.move hmove) ?_, hr.finished⟩, Or.inl (pushStack_ne_nil _ _)⟩
        simp only [Stack.pos_deleteToken, Bool.false_eq_true, if_false]
        omega
  · -- At the end the stack is the best one to finish with so far.
    refine ⟨hq₂, ⟨hahead₂, ?_⟩, Or.inr rfl⟩
    intro x hx
    obtain rfl := Option.some.inj hx
    have := (hs₂.pos_le hg).2
    exact ⟨hs₂, by omega⟩
  · refine ⟨hq₂, ⟨hahead₂, hr.finished⟩, Or.inr ?_⟩
    cases hf : r.finished with
    | none => simp [hf] at hbest
    | some x => rfl

/-- **Recovery finds a stack to go on or to finish with**, unless all that is left is a second stack
to be started over. -/
theorem recover_ensures (hg : g.Fits) (hacc : g.parser.OnlyAccepts) (stuck : List Stuck)
    (hstuck : ∀ s ∈ stuck, s.At g pos) {r : Recovered} (hr : r.Sound g pos) (hq : q.Along g p₀) :
    Ensures g.parser.MayFail (recover stuck r) q fun r' q' =>
      q'.Along g p₀ ∧ r'.Sound g pos ∧
        (r.IsFound ∨ stuck ≠ [] ∧ r.restarted = false → r'.IsFound) := by
  induction stuck generalizing r q with
  | nil =>
      refine ⟨hq, hr, ?_⟩
      rintro (h | h)
      · exact h
      · exact absurd rfl h.1
  | cons first rest ih =>
      have hfirst := hstuck first List.mem_cons_self
      have hrest : ∀ s ∈ rest, s.At g pos := fun s hs => hstuck s (List.mem_cons_of_mem _ hs)
      -- Once something is found, it stays found.
      have onward : ∀ {r' : Recovered} {q' : Parse}, r'.Sound g pos → q'.Along g p₀ → r'.IsFound →
          Ensures g.parser.MayFail (recover rest r') q' fun r'' q'' =>
            q''.Along g p₀ ∧ r''.Sound g pos ∧
              (r.IsFound ∨ first :: rest ≠ [] ∧ r.restarted = false → r''.IsFound) := by
        intro r' q' hr' hq' hfound
        refine (ih hrest hr' hq').mono ?_
        rintro r'' q'' ⟨h₁, h₂, h₃⟩
        exact ⟨h₁, h₂, fun _ => h₃ (Or.inl hfound)⟩
      rw [recover, ensures_bind, ensures_ofParser, hq.parser]
      refine ensures_ite (fun _ => ensures_ite (fun hagain => ?_) (fun _ => ?_)) (fun _ => ?_)
      · refine (ih hrest hr hq).mono ?_
        rintro r' q' ⟨h₁, h₂, h₃⟩
        refine ⟨h₁, h₂, ?_⟩
        rintro (h | h)
        · exact h₃ (Or.inl h)
        · rw [hagain] at h
          cases h.2
      · refine (actUntilPast_ensures hg hacc (hfirst.stack.move (.restart _))
          (by simpa using hfirst.pos_eq) hr.ahead hq).bind ?_
        rintro ⟨left, ahead⟩ q' ⟨hq', hahead, hleft, hne⟩
        have hsound : Recovered.Sound g pos { r with ahead, restarted := true } :=
          ⟨hahead, hr.finished⟩
        cases left with
        | none => exact onward hsound hq' (Or.inl (hne (Or.inr rfl)))
        | some x =>
            obtain ⟨hx, hxpos⟩ := hleft x rfl
            refine (repairStack_ensures hg hacc hx hxpos hfirst.le_stop hfirst.stop_le hsound
              hq').bind ?_
            rintro r' q'' ⟨hq'', hr', hfound⟩
            exact onward hr' hq'' hfound
      · refine (repairStack_ensures hg hacc hfirst.stack hfirst.pos_eq hfirst.le_stop
          hfirst.stop_le hr hq).bind ?_
        rintro r' q' ⟨hq', hr', hfound⟩
        exact onward hr' hq' hfound

end Acting

end Parse

end IncrementalLR
