/-
**What calls leave of the stacks of a parse.**

Whatever a call does, and whether it succeeds or fails, every stack that a parse follows afterwards
has come about from those before by a few moves, or by taking a node of an older tree over.  So a
property of stacks that the moves keep holds of all stacks that a parse ever follows, and of those
that it makes trees of, where the terms of shifted and left out tokens may be known to be permitted.

Main definitions:

* `Stack.TokenMove` — what happens to stacks when only certain tokens are recorded;
* `Parse.Used` — what calls make of a parse, also when they fail;
* `Parse.TreeOf`, `Parse.Followed` — the tree of a stack, and what is known between two steps.

Main results:

* `Parse.actOn_keeps`, `Parse.repairStack_keeps` — one action, and the repairs of one stack;
* `Parse.step_keeps` — one step;
* `Parse.Used.obeys` — **what all calls keep**.
-/

import IncrementalLR.Proofs.Permits
import IncrementalLR.Proofs.Progress
import IncrementalLR.Proofs.Steps

set_option relaxedAutoImplicit false
set_option autoImplicit false

namespace IncrementalLR

namespace Stack

/-- One thing that a parse does to a stack besides taking nodes over, where the tokens that are
shifted or left out have certain terms only. -/
inductive TokenMove (p : Parser) (ok : Nat → Prop) : Stack → Stack → Prop
  | split (s : Stack) (env : Env) : TokenMove p ok s (s.split env).1
  | look (s : Stack) (pos : Nat) : TokenMove p ok s (s.raiseLookAhead pos)
  | reduce (s : Stack) (word : Nat) (env : Env) : TokenMove p ok s (s.reduce p word env).1
  | shift {s : Stack} {term : Nat} (word start stop : Nat) (env : Env) : ok term →
      TokenMove p ok s (s.shift p word term start stop env).1
  | leave {s : Stack} {env : Env} {r : Stack × Env} : s.leaveRule p env = (true, r) →
      TokenMove p ok s r.1
  | insert (s : Stack) (term state : Nat) (env : Env) :
      TokenMove p ok s (s.insertToken p term state env).1
  | delete {s : Stack} {term : Nat} (stop : Nat) : ok term →
      TokenMove p ok s (s.deleteToken p term stop)
  | error (s : Stack) : TokenMove p ok s s.storeError
  | restart (s : Stack) : TokenMove p ok s s.restart

end Stack

namespace Parse

/-- What calls make of a parse, whether they succeed or fail. -/
inductive Used (q₀ : Parse) : Parse → Prop
  | refl : Used q₀ q₀
  | advance {q : Parse} : Used q₀ q → Used q₀ q.advance.2
  | stop {q r : Parse} {pos : Nat} : Used q₀ q → q.stopAt pos = .ok r → Used q₀ r

/-- A tree that is built from the records of a stack with a property, and stamped. -/
def TreeOf (p : Parser) (K : Stack → Prop) (t : Tree) : Prop :=
  ∃ s, K s ∧ ∃ (reused : Array Tree) (lo epoch : Nat) (built : Tree),
    Tree.buildFrom (planFor p reused lo s.pos) (s.close p).reader = .ok built ∧
      t = built.stampAll epoch

open ParseM

/-! `K` is a property of stacks that all moves keep, and taking a node over as well if `F` says that
there may be fragments. -/

section Walk

variable {p : Parser} {ok : Nat → Prop} {F : Prop} {K : Stack → Prop}
  {J : List Stack → Option Tree → Prop} {q : Parse}
  (hread : p.ReadsOnly ok) (hok : ∀ term, p.Permits term → ok term)
  (hK : ∀ s s', K s → Stack.TokenMove p ok s s' → K s')
  (hF : F → ∀ s, K s → ∀ node state env, K (s.adopt p node state env).1)

/-! ### One action -/

/-- A property of all stacks after one action. -/
structure Advanced.All (K : Stack → Prop) (a : Advanced) : Prop where
  stack : K a.stack
  ahead : ∀ s ∈ a.ahead, K s
  level : ∀ s ∈ a.level, K s

theorem Advanced.all_single {s : Stack} (h : K s) (moved : Bool) :
    Advanced.All K ⟨moved, s, [], []⟩ where
  stack := h
  ahead := fun _ hs => (List.not_mem_nil hs).elim
  level := fun _ hs => (List.not_mem_nil hs).elim

/-- A property of two lists of stacks. -/
theorem forall_mem_append {l l' : List Stack} (h : ∀ s ∈ l, K s) (h' : ∀ s ∈ l', K s) :
    ∀ s ∈ l ++ l', K s := by
  intro s hs
  rcases List.mem_append.1 hs with hs | hs
  · exact h s hs
  · exact h' s hs

theorem forall_mem_pushStack {s : Stack} {l : List Stack} (hs : K s) (h : ∀ x ∈ l, K x) :
    ∀ x ∈ pushStack s l, K x := by
  intro x hx
  rcases mem_pushStack hx with rfl | hx
  · exact hs
  · exact h x hx

include hK in
/-- An action on a permitted token. -/
theorem all_apply {s : Stack} {word term start stop : Nat} {env : Env} (hs : K s)
    (hterm : ok term) : K (s.apply p word term start stop env).1 := by
  rw [Stack.apply]
  split
  · exact hK _ _ hs (.reduce s word env)
  · exact hK _ _ hs (.shift word start stop env hterm)

include hK in
/-- Several actions of a stack, each but the last on a copy. -/
theorem all_applyActions (start : Nat) (fork : Bool) (actions : List TokenAction)
    (hactions : ∀ a ∈ actions, ok a.term) {a : Advanced} (ha : a.All K) (env : Env) :
    (applyActions p start fork actions a env).1.All K := by
  induction actions generalizing a env with
  | nil => exact ha
  | cons action rest ih =>
      obtain ⟨haction, hrest⟩ := List.forall_mem_cons.1 hactions
      rw [applyActions]
      split
      · exact ⟨all_apply hK ha.stack haction, ha.ahead, ha.level⟩
      · have hwhole : K (a.stack.split env).1 := hK _ _ ha.stack (.split _ _)
        have hcopy : K ((a.stack.split env).1.apply p action.word action.term start action.stop
            (a.stack.split env).2).1 := all_apply hK hwhole haction
        refine ih hrest ?_ _
        split
        · exact ⟨hwhole, forall_mem_append ha.ahead (List.forall_mem_singleton.2 hcopy), ha.level⟩
        · exact ⟨hwhole, ha.ahead, forall_mem_append ha.level (List.forall_mem_singleton.2 hcopy)⟩

include hK in
/-- Leaving a rule, or finding no way out of it. -/
theorem all_leaveRule {s : Stack} (hs : K s) (env : Env) : K (s.leaveRule p env).2.1 := by
  rcases hleave : s.leaveRule p env with ⟨_ | _, r⟩
  · obtain ⟨-, rfl⟩ := Stack.leaveRule_eq_false hleave
    exact hs
  · exact hK _ _ hs (.leave hleave)

include hK in
/-- Leaving rules. -/
theorem all_leaveWhileF {again : Stack → Bool} {fuel : Nat} {s : Stack} {env : Env}
    {r : Stack × Env} (hs : K s) (h : s.leaveWhileF p again fuel env = some r) : K r.1 := by
  induction fuel generalizing s env with
  | zero => cases h
  | succ fuel ih =>
      rw [Stack.leaveWhileF] at h
      have hleft := all_leaveRule hK hs env
      split at h
      · split at h
        · rename_i r' hleave
          rw [hleave] at hleft
          exact ih hleft h
        · rename_i r' hleave
          rw [hleave] at hleft
          obtain rfl := Option.some.inj h
          exact hleft
      · obtain rfl := Option.some.inj h
        exact hs

include hK in
theorem cutDepth_keeps {s : Stack} (hs : K s) (hq : q.Obeys p ok F J) :
    ParseM.Keeps (Obeys p ok F J) (cutDepth s) q K := by
  rw [cutDepth, keeps_ofParser, hq.parser]
  refine keeps_ite (fun _ => ?_) fun _ => keeps_pure hq hs
  exact keeps_onEnvLimited hq fun r hr => ⟨hq.withEnv _, all_leaveWhileF hK hs hr⟩

include hF in
/-- A stack that takes a node over. -/
theorem takeOver_obeys {s : Stack} (hs : K s) (hq : q.Obeys p ok F J) :
    ParseM.Keeps (Obeys p ok F J) (takeOver s) q fun found => ∀ x, found = some x → K x := by
  rw [takeOver, keeps_get]
  cases hreuse : q.reuse with
  | none => exact keeps_pure hq fun x hx => by cases hx
  | some cursor =>
      have hmay : F := hq.reuse (by rw [hreuse]; exact Option.some_ne_none cursor)
      dsimp only
      rw [keeps_set]
      have hmoved : Obeys p ok F J { q with reuse := some (cursor.offerAt s.pos).2 } :=
        ⟨hq.parser, fun _ => hmay, hq.memo, hq.rest⟩
      split
      · rename_i t state _
        refine ParseM.Keeps.bind (P := K) (keeps_onEnv.2 ⟨hmoved.withEnv _, ?_⟩)
          fun s' q₁ hq₁ hs' => ?_
        · rw [hq.parser]
          exact hF hmay s hs t state _
        · exact keeps_pure hq₁ fun x hx => Option.some.inj hx ▸ hs'
      · exact keeps_pure hmoved fun x hx => by cases hx

include hread hok hK hF in
/-- One action of a stack. -/
theorem actOn_keeps {s : Stack} {fork : Bool} (hs : K s) (hq : q.Obeys p ok F J) :
    ParseM.Keeps (Obeys p ok F J) (actOn s fork) q (Advanced.All K) := by
  rw [actOn, keeps_get]
  refine keeps_ite (fun _ => ?_) fun _ => ?_
  · rw [hq.parser, keeps_onEnv]
    exact ⟨hq.withEnv _, Advanced.all_single (all_leaveRule hK hs _) _⟩
  · refine (takeOver_obeys hF hs hq).bind fun taken q₁ hq₁ htaken => ?_
    cases taken with
    | some x => exact keeps_pure hq₁ (Advanced.all_single (htaken x rfl) _)
    | none =>
        dsimp only
        rw [hq.parser]
        refine keeps_ite (fun _ => ?_) fun _ => ?_
        · refine ParseM.Keeps.bind (P := K) (keeps_onEnv.2 ⟨hq₁.withEnv _, ?_⟩)
            fun s' q₂ hq₂ hs' => ?_
          · exact hK _ _ hs (.reduce s _ _)
          · exact keeps_pure hq₂ (Advanced.all_single hs' _)
        · refine (cutDepth_keeps hK hs hq₁).bind fun s₁ q₂ hq₂ hs₁ => ?_
          refine (actionsFor_within hread hok s₁ hq₂).bind ?_
          rintro ⟨actions, s₂⟩ q₃ hq₃ ⟨hactions, hlook⟩
          have hs₂ : K s₂ := by
            rcases hlook with rfl | ⟨pos, rfl⟩
            · exact hs₁
            · exact hK _ _ hs₁ (.look s₁ pos)
          rw [keeps_get, keeps_onEnv]
          exact ⟨hq₃.withEnv _,
            all_applyActions hK _ fork actions hactions (Advanced.all_single hs₂ false) _⟩

/-! ### Stacks that go on alone -/

/-- A property of a stack that may have got stuck, and of all others. -/
def AllPast (K : Stack → Prop) (r : Option Stack × List Stack) : Prop :=
  (∀ s, r.1 = some s → K s) ∧ ∀ s ∈ r.2, K s

include hread hok hK hF in
theorem actUntilPastF_keeps (pos fuel : Nat) {s : Stack} {others : List Stack} (hs : K s)
    (hothers : ∀ x ∈ others, K x) (hq : q.Obeys p ok F J) :
    ParseM.Keeps (Obeys p ok F J) (actUntilPastF pos fuel s others) q (AllPast K) := by
  induction fuel generalizing s q with
  | zero => exact hq
  | succ fuel ih =>
      rw [actUntilPastF]
      refine (actOn_keeps hread hok hK hF hs hq).bind fun a q' hq' ha => ?_
      refine keeps_ite (fun _ => ?_) fun _ => keeps_ite (fun _ => ?_) fun _ => ?_
      · exact keeps_pure hq' ⟨fun x hx => Option.some.inj hx ▸ ha.stack, hothers⟩
      · refine keeps_pure hq' ⟨fun x hx => ?_, forall_mem_pushStack ha.stack hothers⟩
        cases hx
      · exact ih ha.stack hq'

include hread hok hK hF in
theorem actUntilPast_keeps {s : Stack} {others : List Stack} (hs : K s)
    (hothers : ∀ x ∈ others, K x) (hq : q.Obeys p ok F J) :
    ParseM.Keeps (Obeys p ok F J) (actUntilPast s others) q (AllPast K) := by
  rw [actUntilPast, keeps_get]
  exact actUntilPastF_keeps hread hok hK hF _ _ hs hothers hq

/-! ### Repairs -/

include hread hok hK hF in
theorem tryForced_keeps (count : Nat) {s : Stack} {others : List Stack} (hs : K s)
    (hothers : ∀ x ∈ others, K x) (hq : q.Obeys p ok F J) :
    ParseM.Keeps (Obeys p ok F J) (tryForced p count s others) q fun l => ∀ x ∈ l, K x := by
  induction count generalizing s others q with
  | zero => exact keeps_pure hq hothers
  | succ count ih =>
      rw [tryForced]
      refine ParseM.Keeps.bind (P := fun forced : Bool × Stack => K forced.2)
        (keeps_onEnv.2 ⟨hq.withEnv _, all_leaveRule hK hs _⟩) ?_
      rintro ⟨_ | _, x⟩ q₁ hq₁ hx
      · exact keeps_pure hq₁ hothers
      · refine (actUntilPast_keeps hread hok hK hF hx hothers hq₁).bind ?_
        rintro ⟨stuck, ahead⟩ q₂ hq₂ ⟨hstuck, hahead⟩
        cases stuck with
        | some y => exact ih (hstuck y rfl) hahead hq₂
        | none => exact keeps_pure hq₂ hahead

include hread hok hK hF in
theorem tryInserted_keeps {inserted others : List Stack} (hinserted : ∀ x ∈ inserted, K x)
    (hothers : ∀ x ∈ others, K x) (hq : q.Obeys p ok F J) :
    ParseM.Keeps (Obeys p ok F J) (tryInserted inserted others) q fun l => ∀ x ∈ l, K x := by
  induction inserted generalizing others q with
  | nil => exact keeps_pure hq hothers
  | cons s rest ih =>
      obtain ⟨hs, hrest⟩ := List.forall_mem_cons.1 hinserted
      rw [tryInserted]
      refine (actUntilPast_keeps hread hok hK hF hs hothers hq).bind fun r q' hq' hr => ?_
      exact ih hrest hr.2 hq'

include hK in
theorem all_insertEach {s : Stack} (hs : K s) (chosen : List (Nat × Nat)) (env : Env) :
    ∀ x ∈ (s.insertEach p chosen env).1, K x := by
  induction chosen generalizing env with
  | nil => exact fun x hx => (List.not_mem_nil hx).elim
  | cons c rest ih =>
      intro x hx
      rcases List.mem_cons.1 hx with rfl | hx
      · exact hK _ _ hs (.insert s c.1 c.2 env)
      · exact ih _ x hx

include hK in
theorem all_insertTokens {s : Stack} (hs : K s) (next : Nat) (env : Env) :
    K (s.insertTokens p next env).1 ∧ ∀ x ∈ (s.insertTokens p next env).2.1, K x := by
  have hsplit : K (s.split env).1 := hK _ _ hs (.split s _)
  rw [Stack.insertTokens]
  split
  · exact ⟨hs, fun x hx => (List.not_mem_nil hx).elim⟩
  · split
    · exact ⟨hs, fun x hx => (List.not_mem_nil hx).elim⟩
    · exact ⟨hsplit, all_insertEach hK hsplit _ _⟩

/-- A property of all stacks that recovery has found. -/
structure Recovered.All (K : Stack → Prop) (r : Recovered) : Prop where
  ahead : ∀ s ∈ r.ahead, K s
  finished : ∀ s, r.finished = some s → K s

include hread hok hK hF in
/-- The repairs of one stack; the token that is left out has a permitted term. -/
theorem repairStack_keeps {s : Stack} {term stop : Nat} {r : Recovered} (hs : K s)
    (hterm : ok term) (hr : r.All K) (hq : q.Obeys p ok F J) :
    ParseM.Keeps (Obeys p ok F J) (repairStack s term stop r) q (Recovered.All K) := by
  rw [repairStack, keeps_ofParser, hq.parser]
  refine ParseM.Keeps.bind (P := K)
    (keeps_onEnv.2 ⟨hq.withEnv _, hK _ _ hs (.split s _)⟩) fun whole q₀ hq₀ hsplit => ?_
  refine (tryForced_keeps hread hok hK hF _ hsplit hr.ahead hq₀).bind
    fun ahead q₁ hq₁ hahead => ?_
  refine ParseM.Keeps.bind (P := fun inserted : Stack × List Stack =>
      K inserted.1 ∧ ∀ x ∈ inserted.2, K x)
    (keeps_onEnv.2 ⟨hq₁.withEnv _, all_insertTokens hK hsplit term _⟩) ?_
  rintro ⟨s', inserted⟩ q₂ hq₂ ⟨hs', hinserted⟩
  refine (tryInserted_keeps hread hok hK hF hinserted hahead hq₂).bind fun ahead q₃ hq₃ hahead => ?_
  rw [keeps_get]
  refine keeps_ite (fun _ => ?_) fun _ => keeps_ite (fun _ => ?_) fun _ => ?_
  · have hdelete : ∀ stop', K (s'.deleteToken p
        (if decide (stop = s'.pos) = true then errorTerm else term) stop') := by
      intro stop'
      refine hK _ _ hs' (.delete stop' ?_)
      split
      · exact hok _ (Or.inl rfl)
      · exact hterm
    exact keeps_pure hq₃ ⟨forall_mem_pushStack (hdelete _) hahead, hr.finished⟩
  · exact keeps_pure hq₃ ⟨hahead, fun x hx => Option.some.inj hx ▸ hs'⟩
  · exact keeps_pure hq₃ ⟨hahead, hr.finished⟩

/-- A stuck stack with a property, and a token of a permitted term. -/
def Stuck.Is (K : Stack → Prop) (ok : Nat → Prop) (s : Stuck) : Prop := K s.stack ∧ ok s.term

include hread hok hK hF in
theorem recover_keeps {stuck : List Stuck} {r : Recovered} (hstuck : ∀ s ∈ stuck, s.Is K ok)
    (hr : r.All K) (hq : q.Obeys p ok F J) :
    ParseM.Keeps (Obeys p ok F J) (recover stuck r) q (Recovered.All K) := by
  induction stuck generalizing r q with
  | nil => exact keeps_pure hq hr
  | cons s rest ih =>
      obtain ⟨⟨hs, hterm⟩, hrest⟩ := List.forall_mem_cons.1 hstuck
      rw [recover, keeps_ofParser]
      refine keeps_ite (fun _ => keeps_ite (fun _ => ih hrest hr hq) fun _ => ?_) fun _ => ?_
      · have hagain : K s.stack.restart := hK _ _ hs (.restart _)
        refine (actUntilPast_keeps hread hok hK hF hagain hr.ahead hq).bind ?_
        rintro ⟨again, ahead⟩ q₁ hq₁ ⟨hagain, hahead⟩
        have hrestarted : Recovered.All K { r with ahead, restarted := true } :=
          ⟨hahead, hr.finished⟩
        cases again with
        | none => exact ih hrest hrestarted hq₁
        | some x =>
            refine (repairStack_keeps hread hok hK hF (hagain x rfl) hterm hrestarted hq₁).bind ?_
            intro r' q₂ hq₂ hr'
            exact ih hrest hr' hq₂
      · refine (repairStack_keeps hread hok hK hF hs hterm hr hq).bind fun r' q₂ hq₂ hr' => ?_
        exact ih hrest hr' hq₂

/-! ### All stacks -/

/-- A property of all stacks that were taken past a position or got stuck. -/
structure Drained.All (K : Stack → Prop) (ok : Nat → Prop) (d : Drained) : Prop where
  ahead : ∀ s ∈ d.ahead, K s
  stuck : ∀ s ∈ d.stuck, s.Is K ok

include hread hok hK hF in
theorem drainF_keeps (pos fuel : Nat) {queue : List Stack} {d : Drained}
    (hqueue : ∀ s ∈ queue, K s) (hd : d.All K ok) (hq : q.Obeys p ok F J) :
    ParseM.Keeps (Obeys p ok F J) (drainF pos fuel queue d) q (Drained.All K ok) := by
  induction fuel generalizing queue d q with
  | zero => exact hq
  | succ fuel ih =>
      cases queue with
      | nil => exact keeps_pure hq hd
      | cons s queue =>
          obtain ⟨hs, hrest⟩ := List.forall_mem_cons.1 hqueue
          have hcleared : Obeys p ok F J { q with memo := { q.memo with main := none } } :=
            hq.withMain fun t ht => by cases ht
          rw [drainF, keeps_modify]
          refine keeps_ite (fun _ => ?_) fun _ => ?_
          · refine ih hrest ⟨forall_mem_append hd.ahead ?_, hd.stuck⟩ hcleared
            exact List.forall_mem_singleton.2 hs
          · refine (actOn_keeps hread hok hK hF hs hcleared).bind fun a q' hq' ha => ?_
            have hahead := forall_mem_append hd.ahead ha.ahead
            have hqueue' := forall_mem_append hrest ha.level
            refine keeps_ite (fun _ => ?_) fun _ => ?_
            · exact ih (List.forall_mem_cons.2 ⟨ha.stack, hqueue'⟩) ⟨hahead, hd.stuck⟩ hq'
            · rw [keeps_get]
              refine ih hqueue' ⟨hahead, fun x hx => ?_⟩ hq'
              rcases List.mem_append.1 hx with hx | hx
              · exact hd.stuck x hx
              · obtain rfl := List.mem_singleton.1 hx
                exact ⟨ha.stack, permits_mainToken hok hq' a.stack⟩

include hK in
theorem fastForward_keeps {live : List Stack} (hlive : ∀ s ∈ live, K s) (hq : q.Obeys p ok F J) :
    ParseM.Keeps (Obeys p ok F J) (fastForward live) q fun l => ∀ s ∈ l, K s := by
  rw [fastForward, keeps_get]
  split
  · rename_i s
    have hs := hlive s List.mem_cons_self
    refine keeps_ite (fun _ => ?_) fun _ => keeps_pure hq hlive
    refine ParseM.Keeps.bind (P := K) (keeps_onEnvLimited hq fun r hr => ⟨hq.withEnv _, ?_⟩)
      fun s' q₁ hq₁ hs' => ?_
    · rw [hq.parser] at hr
      have hleft := all_leaveRule hK hs q.env
      split at hr
      · rename_i r' hleave
        rw [hleave] at hleft
        obtain rfl := Option.some.inj hr
        exact hleft
      · rename_i r' hleave
        rw [hleave] at hleft
        exact all_leaveWhileF hK hleft hr
    · rw [keeps_modify]
      exact keeps_pure (hq₁.congr rfl rfl rfl rfl rfl) (List.forall_mem_singleton.2 hs')
  · exact keeps_pure hq hlive

include hread hok hK hF in
theorem repairOrFinish_keeps {d : Drained} (hd : d.All K ok) (hq : q.Obeys p ok F J) :
    ParseM.Keeps (Obeys p ok F J) (repairOrFinish d.stuck d.ahead) q fun r =>
      (∀ s ∈ r.1, K s) ∧ ∀ s, r.2 = some s → K s := by
  rw [repairOrFinish, keeps_get]
  cases hstuck : d.stuck with
  | nil => exact keeps_pure hq ⟨hd.ahead, fun s hs => by cases hs⟩
  | cons first rest =>
      have hall : ∀ s ∈ first :: rest, s.Is K ok := hstuck ▸ hd.stuck
      refine keeps_ite (fun _ => ?_) fun _ => ?_
      · refine keeps_pure hq ⟨hd.ahead, fun s hs => ?_⟩
        exact Option.some.inj hs ▸ (hall first List.mem_cons_self).1
      · refine (recover_keeps hread hok hK hF hall (r := { ahead := d.ahead })
          ⟨hd.ahead, fun s hs => by cases hs⟩ hq).bind fun r q' hq' hr => ?_
        exact keeps_pure hq' ⟨hr.ahead, hr.finished⟩

theorem selectStacks_keeps {pos : Nat} {ahead : List Stack} (hahead : ∀ s ∈ ahead, K s)
    (hq : q.Obeys p ok F J) :
    ParseM.Keeps (Obeys p ok F J) (selectStacks pos ahead) q fun l => ∀ s ∈ l, K s := by
  rw [selectStacks, keeps_get]
  refine keeps_ite (fun _ => ?_) fun _ => keeps_ite (fun _ => ?_) fun _ => ?_
  · have hkept : ∀ count, ∀ s ∈ topStacks count ahead, K s := fun count s hs =>
      hahead s (mem_topStacks hs)
    refine keeps_ite (fun _ => ?_) fun _ => keeps_pure hq (hkept _)
    rw [keeps_set]
    exact keeps_pure (hq.congr rfl rfl rfl rfl rfl) (hkept _)
  · exact keeps_pure hq fun s hs => hahead s ((prune_sublist _ _).subset (List.mem_of_mem_take hs))
  · exact keeps_pure hq hahead

theorem enterRecovery_keeps (pos : Nat) (hq : q.Obeys p ok F J) :
    ParseM.Keeps (Obeys p ok F J) (enterRecovery pos) q fun _ => True := by
  rw [enterRecovery, keeps_get]
  refine keeps_ite (fun _ => hq) fun _ => keeps_ite (fun _ => ?_) fun _ => keeps_pure hq trivial
  exact ⟨hq.congr rfl rfl rfl rfl rfl, trivial⟩

/-! ### Steps -/

/-- What is known between two steps: the stacks that are followed, and the stack that the result was
made of. -/
def Followed (p : Parser) (K : Stack → Prop) (live : List Stack) (result : Option Tree) : Prop :=
  (∀ s ∈ live, K s) ∧ ∀ t, result = some t → TreeOf p K t

/-- The tree of a stack is the result from then on. -/
theorem toTree_keeps {s : Stack} (hs : K s) (hq : q.Obeys p ok F (Followed p K)) :
    ParseM.Keeps (Obeys p ok F (Followed p K)) (toTree s) q (TreeOf p K) := by
  rw [toTree, keeps_get]
  dsimp only
  rw [hq.parser, pos_close]
  split
  · exact hq
  · rename_i built hbuilt
    have htree : TreeOf p K (built.stampAll q.epoch) := ⟨s, hs, _, _, _, built, hbuilt, rfl⟩
    rw [keeps_set]
    refine keeps_pure ⟨rfl, hq.reuse, hq.memo, hq.rest.1, fun t ht => ?_⟩ htree
    exact Option.some.inj ht ▸ htree

include hK in
theorem forceTree_keeps {s : Stack} (hs : K s) (hq : q.Obeys p ok F (Followed p K)) :
    ParseM.Keeps (Obeys p ok F (Followed p K)) (forceTree s) q (TreeOf p K) := by
  rw [forceTree, keeps_ofParser, hq.parser]
  refine ParseM.Keeps.bind (P := K) (keeps_onEnvLimited hq fun r hr => ⟨hq.withEnv _, ?_⟩)
    fun s' q' hq' hs' => toTree_keeps hs' hq'
  rw [Stack.leaveAllF] at hr
  obtain ⟨left, hleft, rfl⟩ := Option.map_eq_some_iff.1 hr
  have hkept := all_leaveWhileF hK hs hleft
  split
  · exact hkept
  · exact hK _ _ hkept (.error _)

/-- A tree that a step gives is that of a stack. -/
def Gives (p : Parser) (K : Stack → Prop) (found : Option Tree) : Prop :=
  ∀ t, found = some t → TreeOf p K t

include hK in
theorem settle_keeps {pos : Nat} {ahead : List Stack} {done : Option Stack}
    (hahead : ∀ s ∈ ahead, K s) (hdone : ∀ s, done = some s → K s)
    (hq : q.Obeys p ok F (Followed p K)) :
    ParseM.Keeps (Obeys p ok F (Followed p K)) (settle pos ahead done) q (Gives p K) := by
  cases done with
  | some s =>
      refine (forceTree_keeps hK (hdone s rfl) hq).bind fun t q' hq' ht => ?_
      exact keeps_pure hq' fun u hu => Option.some.inj hu ▸ ht
  | none =>
      refine (selectStacks_keeps hahead hq).bind fun kept q' hq' hkept => ?_
      split
      · exact hq'
      · rw [keeps_modify]
        refine keeps_pure ⟨hq'.parser, hq'.reuse, hq'.memo, hkept, hq'.rest.2⟩ ?_
        rintro t ⟨⟩

include hread hok hK hF in
theorem goOn_keeps {pos : Nat} {d : Drained} (hd : d.All K ok)
    (hq : q.Obeys p ok F (Followed p K)) :
    ParseM.Keeps (Obeys p ok F (Followed p K)) (goOn pos d) q (Gives p K) := by
  rw [goOn, keeps_get]
  refine keeps_ite (fun _ => ?_) fun _ => ?_
  · refine (repairOrFinish_keeps hread hok hK hF hd hq).bind fun r q' hq' hr => ?_
    exact settle_keeps hK hr.1 hr.2 hq'
  · exact settle_keeps hK hd.ahead (fun s hs => by cases hs) hq

include hread hok hK hF in
/-- **What one step keeps**, whether it succeeds or fails. -/
theorem step_keeps (hq : q.Obeys p ok F (Followed p K)) :
    ParseM.Keeps (Obeys p ok F (Followed p K)) step q (Gives p K) := by
  rw [step, keeps_get, keeps_set]
  have hcleared : Obeys p ok F (Followed p K) { q with live := [] } :=
    ⟨hq.parser, hq.reuse, hq.memo, fun s hs => (List.not_mem_nil hs).elim, hq.rest.2⟩
  refine (fastForward_keeps hK hq.rest.1 hcleared).bind fun queue q₁ hq₁ hqueue => ?_
  refine (drainF_keeps hread hok hK hF _ _ hqueue (d := {})
    ⟨fun s hs => (List.not_mem_nil hs).elim, fun s hs => (List.not_mem_nil hs).elim⟩ hq₁).bind
    fun d q₂ hq₂ hd => ?_
  refine keeps_ite (fun _ => ?_) fun _ => goOn_keeps hread hok hK hF hd hq₂
  split
  · rename_i s hbest
    obtain ⟨hmem, -⟩ := bestStack?_eq_some hbest
    obtain ⟨stuck, hin, rfl⟩ := List.mem_map.1 hmem
    refine (toTree_keeps (hd.stuck stuck hin).1 hq₂).bind fun t q₃ hq₃ ht => ?_
    exact keeps_pure hq₃ fun u hu => Option.some.inj hu ▸ ht
  · refine (enterRecovery_keeps _ hq₂).bind fun _ q₃ hq₃ _ => ?_
    exact goOn_keeps hread hok hK hF hd hq₃

include hread hok hK hF in
/-- A call, with whatever it gives. -/
theorem advance_keeps (hq : q.Obeys p ok F (Followed p K)) :
    q.advance.2.Obeys p ok F (Followed p K) ∧
      ∀ t, q.advance.1 = .ok (some t) → TreeOf p K t := by
  rw [Parse.advance]
  cases hresult : q.result with
  | some t => exact ⟨hq, fun u hu => hq.rest.2 u (by rw [hresult, Except.ok.inj hu])⟩
  | none =>
      have key := step_keeps hread hok hK hF hq
      rw [ParseM.Keeps] at key
      generalize step.run q = outcome at key ⊢
      rcases outcome with ⟨e | found, r⟩
      · exact ⟨key, fun t ht => by cases ht⟩
      · exact ⟨key.1, fun t ht => key.2 t (Except.ok.inj ht)⟩

include hread hok hK hF in
/-- **What all calls keep.** -/
theorem Used.obeys {q₀ : Parse} (hq₀ : q₀.Obeys p ok F (Followed p K)) (h : Used q₀ q) :
    q.Obeys p ok F (Followed p K) := by
  induction h with
  | refl => exact hq₀
  | advance _ ih => exact (advance_keeps hread hok hK hF ih).1
  | stop _ hstop ih =>
      obtain ⟨rfl, -⟩ := (stopAt_eq_ok_iff _ _ _).1 hstop
      exact ih.congr rfl rfl rfl rfl rfl

end Walk

/-- A parse starts without tokens, and without fragments if none are given. -/
theorem start_obeys {p : Parser} {doc : Document} {fragments : List Fragment} {ranges : List Span}
    {epoch limit : Nat} {q₀ : Parse} (h : Parse.start p doc fragments ranges epoch limit = .ok q₀)
    (ok : Nat → Prop) {K : Stack → Prop} (hK : K (Stack.start p q₀.env.start)) :
    q₀.Obeys p ok (fragments ≠ []) (Followed p K) := by
  rw [Parse.start] at h
  split at h
  · cases h
  · obtain rfl := Except.ok.inj h
    refine ⟨rfl, fun hreuse => ?_, ⟨fun t ht => ?_, fun t ht => by cases ht⟩, ?_,
      fun t ht => by cases ht⟩
    · rintro rfl
      exact hreuse rfl
    · obtain ⟨-, rfl⟩ := Array.mem_replicate.1 ht
      exact Token.within_of_none rfl rfl
    · exact List.forall_mem_singleton.2 hK

end Parse

end IncrementalLR
