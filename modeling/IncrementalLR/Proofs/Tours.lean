/-
**An iteration over a range visits what it should.**

The loop of an iteration has a cursor and a flag, and no record of the nodes that it has entered and
not left.  A tour is the same iteration told by the nesting of the nodes: a node that is gone into
is entered, then what lies below it is toured, then it is left.  The loop makes the visits of the
tour, because a cursor that has left the last of some siblings goes up to the node around them, and
that one has been gone into.

Of a tour it is plain what it visits.  View children lie inside of their node, so a node that does
not touch the range has nothing inside of it that does; and whatever has been gone into around a
node was entered before it.

Main definitions:

* `Visit.Nested` — visits that are properly nested;
* `Visit.AnsweredBy` — visits in which a predicate has given the answers;
* `Iteration.Tour` — the visits of a forest;
* `Iteration.Completed` — what the visits of an iteration over a tree have to be.

Main results:

* `Iteration.exists_tour` — every forest has a tour;
* `Iteration.Tour.ends` — **the loop makes the visits of the tour**;
* `Iteration.Tour.entered` — what is entered in a tour;
* `Tree.iterateRange_completed` — **every iteration visits exactly what it should**.
-/

import IncrementalLR.Proofs.Resolving
import IncrementalLR.Tree.Iterate

set_option relaxedAutoImplicit false
set_option autoImplicit false

namespace IncrementalLR

/-! ### Visits -/

namespace Visit

/-- The node that is entered or left. -/
def node : Visit → Node
  | enter n _ => n
  | leave n => n

/-- The node that is entered. -/
def entered? : Visit → Option Node
  | enter n _ => some n
  | leave _ => none

/-- The node that is entered and gone into. -/
def into? : Visit → Option Node
  | enter n true => some n
  | enter _ false => none
  | leave _ => none

/-- The node that is left. -/
def left? : Visit → Option Node
  | enter _ _ => none
  | leave n => some n

/-- Visits that are properly nested: a node that is gone into is left after the visits of the nodes
below it and before all others, and no other node is left. -/
inductive Nested (mode : Mode) : List Visit → Prop
  | nil : Nested mode []
  | refused {n : Node} {others : List Visit} : (∀ v ∈ others, ¬ n.Reaches mode v.node) →
      Nested mode others → Nested mode (.enter n false :: others)
  | entered {n : Node} {inside others : List Visit} :
      (∀ v ∈ inside, n.Reaches mode v.node ∧ v.node ≠ n) →
      (∀ v ∈ others, ¬ n.Reaches mode v.node) → Nested mode inside → Nested mode others →
      Nested mode (.enter n true :: (inside ++ .leave n :: others))

/-- Visits made after others, the last of which stands first, in which a predicate has given the
answers. -/
def AnsweredBy (accept : List Visit → Node → Bool) : List Visit → List Visit → Prop
  | _, [] => True
  | past, .enter n into :: vs => accept past n = into ∧ AnsweredBy accept (.enter n into :: past) vs
  | past, .leave n :: vs => AnsweredBy accept (.leave n :: past) vs

variable {accept : List Visit → Node → Bool} {past vs vs' : List Visit}

theorem answeredBy_append : AnsweredBy accept past (vs ++ vs') ↔
    AnsweredBy accept past vs ∧ AnsweredBy accept (vs.reverse ++ past) vs' := by
  induction vs generalizing past with
  | nil => simp [AnsweredBy]
  | cons v vs ih =>
      rw [List.cons_append, List.reverse_cons, List.append_assoc, List.singleton_append]
      cases v with
      | enter n into => rw [AnsweredBy, AnsweredBy, ih, and_assoc]
      | leave n => rw [AnsweredBy, AnsweredBy, ih]

theorem mem_left {n : Node} : n ∈ vs.filterMap left? ↔ .leave n ∈ vs := by
  rw [List.mem_filterMap]
  constructor
  · rintro ⟨v, hv, hn⟩
    cases v with
    | enter m into => cases hn
    | leave m =>
        obtain rfl := Option.some.inj hn
        exact hv
  · exact fun h => ⟨_, h, rfl⟩

theorem mem_into {n : Node} : n ∈ vs.filterMap into? ↔ .enter n true ∈ vs := by
  rw [List.mem_filterMap]
  constructor
  · rintro ⟨v, hv, hn⟩
    cases v with
    | enter m into =>
        cases into with
        | true =>
            obtain rfl := Option.some.inj hn
            exact hv
        | false => cases hn
    | leave m => cases hn
  · exact fun h => ⟨_, h, rfl⟩

theorem into_sublist (vs : List Visit) :
    (vs.filterMap into?).Sublist (vs.filterMap entered?) := by
  induction vs with
  | nil => exact .slnil
  | cons v vs ih =>
      cases v with
      | enter n into =>
          cases into with
          | true => exact ih.cons_cons n
          | false => exact ih.cons n
      | leave n => exact ih

/-- A node that is entered once has got one answer. -/
theorem into_unique (h : (vs.filterMap entered?).Nodup) {n : Node} (hinto : .enter n true ∈ vs) :
    .enter n false ∉ vs := by
  intro hrefused
  have hpairs := List.pairwise_filterMap.1 h
  obtain ⟨before, after, rfl⟩ := List.append_of_mem hinto
  obtain ⟨-, hafter, hacross⟩ := List.pairwise_append.1 hpairs
  rcases List.mem_append.1 hrefused with hmem | hmem
  · exact hacross _ hmem _ List.mem_cons_self n rfl n rfl rfl
  · rcases List.mem_cons.1 hmem with heq | hmem
    · cases heq
    · exact List.rel_of_pairwise_cons hafter hmem n rfl n rfl rfl

end Visit

/-! ### Nodes above each other -/

namespace Node

variable {mode : Mode} {n m c x y : Node} {ns : List Node}

theorem reaches_cons :
    (∃ m ∈ n :: ns, m.Reaches mode x) ↔ n.Reaches mode x ∨ ∃ m ∈ ns, m.Reaches mode x := by
  simp

/-- Nothing in a node has anything inside of it that lies in a node apart from this one. -/
theorem Apart.not_reaches (h : n.Apart m) (hn : n.Sound mode) (hm : m.Sound mode)
    (hx : n.Reaches mode x) (hy : m.Reaches mode y) : ¬ x.Reaches mode y := fun hxy =>
  (h.below (hx.trail_along hn) (hy.trail_along hm)).1 (hxy.trail_along (hx.sound hn))

theorem Reaches.ne_of_mem_view (h : c.Reaches mode x) (hn : n.Sound mode)
    (hc : c ∈ n.view mode) : x ≠ n := by
  have hlt := extent_lt_of_mem_view hn hc
  rintro rfl
  rcases h.eq_or_extent_lt (hn.of_mem_view hc) with heq | hlt'
  · rw [heq] at hlt
    exact Nat.lt_irrefl _ hlt
  · omega

/-- What lies around a view child, and is not the child, lies around the node or is the node. -/
theorem Reaches.of_mem_view (h : x.Reaches mode c) (hx : x.Sound mode) (hne : x ≠ c)
    (hn : n.Sound mode) (hc : c ∈ n.view mode) : x.Reaches mode n := by
  rcases h.eq_or_mem with heq | ⟨p, hp, hcp⟩
  · exact absurd heq.symm hne
  · have hparent := parentIn_of_mem_view (hp.sound hx) hcp
    rw [parentIn_of_mem_view hn hc] at hparent
    obtain rfl := Option.some.inj hparent
    exact hp

end Node

namespace Visit.Nested

variable {mode : Mode} {vs vs' : List Visit}

theorem append (h : Nested mode vs) (h' : Nested mode vs')
    (hacross : ∀ v ∈ vs, ∀ w ∈ vs', ¬ v.node.Reaches mode w.node) : Nested mode (vs ++ vs') := by
  induction h with
  | nil => exact h'
  | @refused n others hothers _ ih =>
      obtain ⟨hn, hrest⟩ := List.forall_mem_cons.1 hacross
      refine .refused (fun v hv => ?_) (ih hrest)
      rcases List.mem_append.1 hv with hv | hv
      · exact hothers v hv
      · exact hn v hv
  | @entered n inside others hinside hothers hnested _ _ ih =>
      obtain ⟨hn, hrest⟩ := List.forall_mem_cons.1 hacross
      rw [List.cons_append, List.append_assoc, List.cons_append]
      refine .entered hinside (fun v hv => ?_) hnested
        (ih fun v hv => hrest v (by simp [hv]))
      rcases List.mem_append.1 hv with hv | hv
      · exact hothers v hv
      · exact hn v hv

end Visit.Nested

namespace Iteration

/-! ### Tours -/

/-- The visits of a forest, after others of which the last one stands first. -/
inductive Tour (it : Iteration) : List Visit → List Node → List Visit → Prop
  | nil {past : List Visit} : Tour it past [] []
  /-- A node outside of the range. -/
  | outside {past others : List Visit} {n : Node} {ns : List Node} : it.touches n = false →
      Tour it past ns others → Tour it past (n :: ns) others
  /-- An anonymous node. -/
  | through {past inside others : List Visit} {n : Node} {ns : List Node} :
      it.touches n = true → it.shows n = false →
      Tour it past (n.view it.through) inside → Tour it (inside.reverse ++ past) ns others →
      Tour it past (n :: ns) (inside ++ others)
  /-- A node that is refused. -/
  | refused {past others : List Visit} {n : Node} {ns : List Node} :
      it.touches n = true → it.shows n = true → it.accept past n = false →
      Tour it (.enter n false :: past) ns others →
      Tour it past (n :: ns) (.enter n false :: others)
  /-- A node that is gone into. -/
  | entered {past inside others : List Visit} {n : Node} {ns : List Node} :
      it.touches n = true → it.shows n = true → it.accept past n = true →
      Tour it (.enter n true :: past) (n.view it.through) inside →
      Tour it (.leave n :: (inside.reverse ++ .enter n true :: past)) ns others →
      Tour it past (n :: ns) (.enter n true :: (inside ++ .leave n :: others))

variable {it : Iteration} {past vs : List Visit} {n x : Node} {ns : List Node}

theorem exists_tour (h : ∀ n ∈ ns, n.Sound it.through) (past : List Visit) :
    ∃ vs, it.Tour past ns vs := by
  refine Node.forest_induction .forward (P := fun ns => ∀ past, ∃ vs, it.Tour past ns vs)
    (fun _ => ⟨[], .nil⟩) (fun n ns hview hns past => ?_) h past
  cases htouches : it.touches n with
  | false =>
      obtain ⟨others, hothers⟩ := hns past
      exact ⟨_, .outside htouches hothers⟩
  | true =>
      cases hshows : it.shows n with
      | false =>
          obtain ⟨inside, hinside⟩ := hview past
          obtain ⟨others, hothers⟩ := hns (inside.reverse ++ past)
          exact ⟨_, .through htouches hshows hinside hothers⟩
      | true =>
          cases haccept : it.accept past n with
          | false =>
              obtain ⟨others, hothers⟩ := hns (.enter n false :: past)
              exact ⟨_, .refused htouches hshows haccept hothers⟩
          | true =>
              obtain ⟨inside, hinside⟩ := hview (.enter n true :: past)
              obtain ⟨others, hothers⟩ :=
                hns (.leave n :: (inside.reverse ++ .enter n true :: past))
              exact ⟨_, .entered htouches hshows haccept hinside hothers⟩

/-! ### The loop -/

theorem enter_outside (h : it.touches n = false) : it.enter n past = (false, past) :=
  if_neg (by simp [h])

theorem enter_hidden (h : it.touches n = true) (hshows : it.shows n = false) :
    it.enter n past = (true, past) := by
  rw [enter, if_pos h, if_neg (by simp [hshows])]

theorem enter_shown {into : Bool} (h : it.touches n = true) (hshows : it.shows n = true)
    (haccept : it.accept past n = into) : it.enter n past = (into, .enter n into :: past) := by
  rw [enter, if_pos h, if_pos hshows, haccept]

theorem leave_hidden (hshows : it.shows n = false) (past : List Visit) :
    it.leave n true past = past :=
  if_neg (by simp [hshows])

theorem leave_shown (hshows : it.shows n = true) : it.leave n true past = .leave n :: past :=
  if_pos (by simp [hshows])

/-- What the loop does at a node that it is done with: it goes on beside the node or further up. -/
def onward (it : Iteration) (n : Node) (entered : Bool) (past : List Visit) :
    Option Cursor × List Visit :=
  it.onwardF (n.depth + 1) ⟨n, it.through⟩ entered past

/-- Going up. -/
def upward (it : Iteration) (up : Option Node) (past : List Visit) : Option Cursor × List Visit :=
  match up with
  | some p => it.onward p true past
  | none => (none, past)

/-- Going to a node if there is one, and else up. -/
def goOn (it : Iteration) (target up : Option Node) (past : List Visit) :
    Option Cursor × List Visit :=
  match target with
  | some n => (some ⟨n, it.through⟩, past)
  | none => it.upward up past

theorem onwardF_succ (fuel : Nat) (n : Node) (entered : Bool) (past : List Visit) :
    it.onwardF (fuel + 1) ⟨n, it.through⟩ entered past =
      match n.sibling .forward it.through, n.parentIn true with
      | some m, _ => (some ⟨m, it.through⟩, it.leave n entered past)
      | none, some p => it.onwardF fuel ⟨p, it.through⟩ true (it.leave n entered past)
      | none, none => (none, it.leave n entered past) := by
  have hbeside : (Cursor.mk n it.through).sibling .forward =
      (Cursor.mk n it.through).moveIf (n.sibling .forward it.through) := rfl
  have habove : (Cursor.mk n it.through).parent =
      (Cursor.mk n it.through).moveIf (n.parentIn true) := rfl
  rw [onwardF, hbeside]
  cases n.sibling .forward it.through with
  | some m => rfl
  | none =>
      dsimp only [Cursor.moveIf]
      rw [habove]
      cases n.parentIn true <;> rfl

/-- The fuel of a climb lasts up to the root. -/
theorem onwardF_eq {fuel : Nat} (hfuel : n.depth < fuel) (entered : Bool) :
    it.onwardF fuel ⟨n, it.through⟩ entered past = it.onward n entered past := by
  rw [onward]
  generalize hbound : n.depth + 1 = bound
  replace hbound : n.depth < bound := by omega
  induction fuel generalizing n entered past bound with
  | zero => omega
  | succ fuel ih =>
      obtain ⟨bound, rfl⟩ := Nat.exists_eq_succ_of_ne_zero (Nat.ne_of_gt (Nat.zero_lt_of_lt hbound))
      rw [onwardF_succ, onwardF_succ]
      cases n.sibling .forward it.through with
      | some m => rfl
      | none =>
          cases hparent : n.parentIn true with
          | none => rfl
          | some p =>
              have := Node.depth_lt_of_parentIn hparent
              exact ih (n := p) (by omega) true bound (by omega)

theorem onward_eq (n : Node) (entered : Bool) (past : List Visit) :
    it.onward n entered past =
      it.goOn (n.sibling .forward it.through) (n.parentIn true) (it.leave n entered past) := by
  rw [onward, onwardF_succ]
  cases n.sibling .forward it.through with
  | some m => rfl
  | none =>
      cases hparent : n.parentIn true with
      | none => rfl
      | some p => exact onwardF_eq (Node.depth_lt_of_parentIn hparent) true

theorem upward_some (n : Node) (past : List Visit) :
    it.upward (some n) past =
      it.goOn (n.sibling .forward it.through) (n.parentIn true) (it.leave n true past) :=
  onward_eq n true past

theorem round_of_shut {past' : List Visit} (h : it.enter n past = (false, past')) :
    it.round ⟨n, it.through⟩ past =
      it.goOn (n.sibling .forward it.through) (n.parentIn true) past' := by
  have hround : it.round ⟨n, it.through⟩ past = it.onward n false past' := by
    rw [round]
    dsimp only
    rw [h]
    rfl
  rw [hround, onward_eq]
  rfl

theorem round_of_open {past' : List Visit} (h : it.enter n past = (true, past')) :
    it.round ⟨n, it.through⟩ past =
      it.goOn (n.child { dir := .forward, mode := it.through }) (some n) past' := by
  have hfirst : (Cursor.mk n it.through).firstChild = (Cursor.mk n it.through).moveIf
    (n.child { dir := .forward, mode := it.through }) := rfl
  rw [round]
  dsimp only
  rw [h]
  dsimp only
  rw [hfirst]
  cases n.child { dir := .forward, mode := it.through } <;> rfl

/-- The visits with which the loop ends after some rounds. -/
inductive Ends (it : Iteration) : Nat → Option Cursor × List Visit → List Visit → Prop
  | stop {vs : List Visit} : Ends it 0 (none, vs) vs
  | on {rounds : Nat} {c : Cursor} {past vs : List Visit} :
      Ends it rounds (it.round c past) vs → Ends it (rounds + 1) (some c, past) vs

theorem Ends.runF_eq {rounds fuel : Nat} {c : Cursor} (h : it.Ends rounds (some c, past) vs)
    (hfuel : rounds ≤ fuel) : it.runF fuel c past = vs := by
  generalize hstate : (some c, past) = state at h
  induction h generalizing fuel c past with
  | stop => cases hstate
  | @on rounds _ _ vs hends ih =>
      obtain ⟨rfl, rfl⟩ : _ ∧ _ := by simpa using hstate
      obtain ⟨fuel, rfl⟩ := Nat.exists_eq_succ_of_ne_zero (Nat.ne_of_gt (Nat.zero_lt_of_lt hfuel))
      rw [runF]
      generalize hnext : it.round c past = next at hends
      obtain ⟨target, past'⟩ := next
      cases target with
      | some c' => exact ih (Nat.le_of_succ_le_succ hfuel) hnext.symm
      | none =>
          cases hends
          rfl

/-- **The loop makes the visits of the tour**, from siblings on up to the node around them. -/
theorem Tour.ends (h : it.Tour past ns vs) (hsound : ∀ n ∈ ns, n.Sound it.through)
    {start : Option Node} (hstart : Node.Siblings .forward it.through start ns) {up : Option Node}
    (hup : ∀ n ∈ ns, n.parentIn true = up) {rounds : Nat} {final : List Visit}
    (hends : it.Ends rounds (it.upward up (vs.reverse ++ past)) final) :
    ∃ rounds' ≤ rounds + Node.extentAll ns, it.Ends rounds' (it.goOn start up past) final := by
  induction h generalizing start up rounds with
  | nil =>
      cases hstart
      exact ⟨rounds, Nat.le_refl _, hends⟩
  | @outside past others n ns htouches _ ih =>
      obtain ⟨hn, hns⟩ := List.forall_mem_cons.1 hsound
      obtain ⟨hhere, hbeside⟩ := List.forall_mem_cons.1 hup
      cases hstart with
      | cons hnext =>
          obtain ⟨k, hk, hgo⟩ := ih hns hnext hbeside hends
          have hpos := hn.extent_pos
          refine ⟨k + 1, by rw [Node.extentAll_cons]; omega, .on ?_⟩
          rwa [round_of_shut (enter_outside htouches), hhere]
  | @through past inside others n ns htouches hshows _ _ ihInside ihOthers =>
      obtain ⟨hn, hns⟩ := List.forall_mem_cons.1 hsound
      obtain ⟨hhere, hbeside⟩ := List.forall_mem_cons.1 hup
      cases hstart with
      | cons hnext =>
          obtain ⟨k, hk, hgo⟩ := ihOthers hns hnext hbeside (by simpa using hends)
          rw [← hhere, ← leave_hidden hshows (inside.reverse ++ past), ← upward_some] at hgo
          obtain ⟨j, hj, hin⟩ := ihInside (fun c hc => hn.of_mem_view hc)
            (Node.siblings_child hn .forward) (fun c hc => Node.parentIn_of_mem_view hn hc) hgo
          have hsmall := Node.extentAll_view_lt hn
          refine ⟨j + 1, by rw [Node.extentAll_cons]; omega, .on ?_⟩
          rwa [round_of_open (enter_hidden htouches hshows)]
  | @refused past others n ns htouches hshows haccept _ ih =>
      obtain ⟨hn, hns⟩ := List.forall_mem_cons.1 hsound
      obtain ⟨hhere, hbeside⟩ := List.forall_mem_cons.1 hup
      cases hstart with
      | cons hnext =>
          obtain ⟨k, hk, hgo⟩ := ih hns hnext hbeside (by simpa using hends)
          have hpos := hn.extent_pos
          refine ⟨k + 1, by rw [Node.extentAll_cons]; omega, .on ?_⟩
          rwa [round_of_shut (enter_shown htouches hshows haccept), hhere]
  | @entered past inside others n ns htouches hshows haccept _ _ ihInside ihOthers =>
      obtain ⟨hn, hns⟩ := List.forall_mem_cons.1 hsound
      obtain ⟨hhere, hbeside⟩ := List.forall_mem_cons.1 hup
      cases hstart with
      | cons hnext =>
          obtain ⟨k, hk, hgo⟩ := ihOthers hns hnext hbeside (by simpa using hends)
          rw [← hhere, ← leave_shown hshows, ← upward_some] at hgo
          obtain ⟨j, hj, hin⟩ := ihInside (fun c hc => hn.of_mem_view hc)
            (Node.siblings_child hn .forward) (fun c hc => Node.parentIn_of_mem_view hn hc) hgo
          have hsmall := Node.extentAll_view_lt hn
          refine ⟨j + 1, by rw [Node.extentAll_cons]; omega, .on ?_⟩
          rwa [round_of_open (enter_shown htouches hshows haccept)]

/-! ### What a tour visits -/

/-- What touches the range lies in nodes that touch it. -/
theorem touches_wider {c : Node} (h : it.touches c = true) (hstart : n.start ≤ c.start)
    (hstop : c.stop ≤ n.stop) : it.touches n = true := by
  rw [touches, Bool.and_eq_true, decide_eq_true_eq, decide_eq_true_eq] at h ⊢
  omega

theorem touches_of_reaches {t : Tree} (hn : t.Visits it.through n)
    (h : n.Reaches it.through x) (htouches : it.touches x = true) : it.touches n = true := by
  induction h with
  | refl => exact htouches
  | step hc _ ih =>
      have hbounds := hn.bounds hc
      exact touches_wider (ih (hn.of_mem_view hc) htouches) hbounds.1 hbounds.2

/-- All shown nodes around a node have been gone into. -/
def Surrounded (it : Iteration) (past : List Visit) (n : Node) : Prop :=
  ∀ a : Node, a.Sound it.through → a.Reaches it.through n → a ≠ n → it.shows a = true →
    .enter a true ∈ past

theorem Surrounded.mono {past' : List Visit} (h : it.Surrounded past n) (hmore : past ⊆ past') :
    it.Surrounded past' n := fun a ha hreaches hne hshows =>
  hmore (h a ha hreaches hne hshows)

/-- Around a view child stands the node, and what stands around the node. -/
theorem Surrounded.of_mem_view {c : Node} (h : it.Surrounded past n) (hn : n.Sound it.through)
    (hc : c ∈ n.view it.through) (hself : it.shows n = true → .enter n true ∈ past) :
    it.Surrounded past c := by
  intro a ha hreaches hne hshows
  have habove := hreaches.of_mem_view ha hne hn hc
  by_cases heq : a = n
  · subst heq
    exact hself hshows
  · exact h a ha habove heq hshows

namespace Tour

/-- A tour visits nodes of its forest. -/
theorem reaches (h : it.Tour past ns vs) :
    ∀ v ∈ vs, ∃ n ∈ ns, n.Reaches it.through v.node := by
  induction h with
  | nil => simp
  | outside _ _ ih => exact fun v hv => Node.reaches_cons.2 (.inr (ih v hv))
  | through _ _ _ _ ihInside ihOthers =>
      intro v hv
      rw [Node.reaches_cons]
      rcases List.mem_append.1 hv with hv | hv
      · obtain ⟨c, hc, hreaches⟩ := ihInside v hv
        exact .inl (.step hc hreaches)
      · exact .inr (ihOthers v hv)
  | refused _ _ _ _ ih =>
      intro v hv
      rw [Node.reaches_cons]
      rcases List.mem_cons.1 hv with rfl | hv
      · exact .inl (.refl _)
      · exact .inr (ih v hv)
  | entered _ _ _ _ _ ihInside ihOthers =>
      intro v hv
      rw [Node.reaches_cons]
      simp only [List.mem_cons, List.mem_append] at hv
      rcases hv with rfl | hv | rfl | hv
      · exact .inl (.refl _)
      · obtain ⟨c, hc, hreaches⟩ := ihInside v hv
        exact .inl (.step hc hreaches)
      · exact .inl (.refl _)
      · exact .inr (ihOthers v hv)

/-- **Nodes are entered in pre-order**, each of them once. -/
theorem entered_sublist (h : it.Tour past ns vs) {l : List Node}
    (hl : Node.PreOrder .forward it.through ns l) : (vs.filterMap Visit.entered?).Sublist l := by
  induction h generalizing l with
  | nil => exact List.nil_sublist _
  | outside _ _ ih =>
      cases hl with
      | cons hinner houter =>
          exact ((ih houter).trans (List.sublist_append_right _ _)).cons _
  | through _ _ _ _ ihInside ihOthers =>
      cases hl with
      | cons hinner houter =>
          rw [List.filterMap_append]
          exact ((ihInside hinner).append (ihOthers houter)).cons _
  | refused _ _ _ _ ih =>
      cases hl with
      | cons hinner houter =>
          exact ((ih houter).trans (List.sublist_append_right _ _)).cons_cons _
  | entered _ _ _ _ _ ihInside ihOthers =>
      cases hl with
      | cons hinner houter =>
          have hvisits := (ihInside hinner).append (ihOthers houter)
          rw [← List.filterMap_append] at hvisits
          simpa [List.filterMap_append, List.filterMap_cons, Visit.entered?] using hvisits

/-- The nodes that are left are those that are gone into. -/
theorem left_perm (h : it.Tour past ns vs) :
    (vs.filterMap Visit.left?).Perm (vs.filterMap Visit.into?) := by
  induction h with
  | nil => exact .refl _
  | outside _ _ ih => exact ih
  | through _ _ _ _ ihInside ihOthers =>
      rw [List.filterMap_append, List.filterMap_append]
      exact ihInside.append ihOthers
  | refused _ _ _ _ ih => exact ih
  | @entered _ _ _ n _ _ _ _ _ _ ihInside ihOthers =>
      simp only [List.filterMap_cons, List.filterMap_append, Visit.left?, Visit.into?]
      exact List.perm_middle.trans ((ihInside.append ihOthers).cons n)

/-- **The visits of a tour are properly nested.** -/
theorem nested (h : it.Tour past ns vs) (hsound : ∀ n ∈ ns, n.Sound it.through)
    (hapart : ns.Pairwise Node.Apart) : Visit.Nested it.through vs := by
  -- nothing that a tour visits beside a node lies below anything in it
  have hacross : ∀ {n : Node} {ns : List Node} {past others : List Visit},
      (∀ m ∈ n :: ns, m.Sound it.through) → (n :: ns).Pairwise Node.Apart →
      it.Tour past ns others → ∀ x : Node, n.Reaches it.through x →
        ∀ v ∈ others, ¬ x.Reaches it.through v.node := by
    intro n ns past others hsound hapart hothers x hx v hv
    obtain ⟨m, hm, hreaches⟩ := hothers.reaches v hv
    exact (List.rel_of_pairwise_cons hapart hm).not_reaches (hsound n List.mem_cons_self)
      (hsound m (List.mem_cons_of_mem _ hm)) hx hreaches
  induction h with
  | nil => exact .nil
  | outside _ _ ih => exact ih (List.forall_mem_cons.1 hsound).2 hapart.of_cons
  | @through past inside others n ns _ _ hinside hothers ihInside ihOthers =>
      obtain ⟨hn, hns⟩ := List.forall_mem_cons.1 hsound
      refine (ihInside (fun c hc => hn.of_mem_view hc) (Node.apart_view hn)).append
        (ihOthers hns hapart.of_cons) fun v hv => ?_
      obtain ⟨c, hc, hreaches⟩ := hinside.reaches v hv
      exact hacross hsound hapart hothers _ (.step hc hreaches)
  | @refused past others n ns _ _ _ hothers ih =>
      obtain ⟨hn, hns⟩ := List.forall_mem_cons.1 hsound
      exact .refused (hacross hsound hapart hothers n (.refl n)) (ih hns hapart.of_cons)
  | @entered past inside others n ns _ _ _ hinside hothers ihInside ihOthers =>
      obtain ⟨hn, hns⟩ := List.forall_mem_cons.1 hsound
      refine .entered (fun v hv => ?_) (hacross hsound hapart hothers n (.refl n))
        (ihInside (fun c hc => hn.of_mem_view hc) (Node.apart_view hn))
        (ihOthers hns hapart.of_cons)
      obtain ⟨c, hc, hreaches⟩ := hinside.reaches v hv
      exact ⟨.step hc hreaches, hreaches.ne_of_mem_view hn hc⟩

/-- The predicate has given the answers. -/
theorem answered (h : it.Tour past ns vs) : Visit.AnsweredBy it.accept past vs := by
  induction h with
  | nil => trivial
  | outside _ _ ih => exact ih
  | through _ _ _ _ ihInside ihOthers => exact Visit.answeredBy_append.2 ⟨ihInside, ihOthers⟩
  | refused _ _ haccept _ ih => exact ⟨haccept, ih⟩
  | entered _ _ haccept _ _ ihInside ihOthers =>
      exact ⟨haccept, Visit.answeredBy_append.2 ⟨ihInside, ihOthers⟩⟩

/-- **What is entered** is shown and touches the range, and all shown nodes around it have been
gone into. -/
theorem entered_only (h : it.Tour past ns vs) (hsound : ∀ n ∈ ns, n.Sound it.through)
    (haround : ∀ n ∈ ns, it.Surrounded past n) {into : Bool} (hx : .enter x into ∈ vs) :
    it.shows x = true ∧ it.touches x = true ∧ it.Surrounded (vs.reverse ++ past) x := by
  induction h with
  | nil => cases hx
  | outside _ _ ih =>
      exact ih (List.forall_mem_cons.1 hsound).2 (List.forall_mem_cons.1 haround).2 hx
  | @through past inside others n ns _ hhidden _ _ ihInside ihOthers =>
      obtain ⟨hn, hns⟩ := List.forall_mem_cons.1 hsound
      obtain ⟨hhere, hbeside⟩ := List.forall_mem_cons.1 haround
      rw [List.reverse_append, List.append_assoc]
      rcases List.mem_append.1 hx with hx | hx
      · obtain ⟨hshows, htouches, hpast⟩ := ihInside (fun c hc => hn.of_mem_view hc)
          (fun c hc => hhere.of_mem_view hn hc fun hshows => by simp [hshows] at hhidden) hx
        exact ⟨hshows, htouches, hpast.mono (List.subset_append_right _ _)⟩
      · exact ihOthers hns (fun m hm => (hbeside m hm).mono (List.subset_append_right _ _)) hx
  | @refused past others n ns htouches hshows _ _ ih =>
      obtain ⟨hn, hns⟩ := List.forall_mem_cons.1 hsound
      obtain ⟨hhere, hbeside⟩ := List.forall_mem_cons.1 haround
      rw [List.reverse_cons, List.append_assoc, List.singleton_append]
      have hmore : past ⊆ .enter n false :: past := List.subset_cons_self _ _
      rcases List.mem_cons.1 hx with heq | hx
      · cases heq
        refine ⟨hshows, htouches, hhere.mono ?_⟩
        exact List.Subset.trans hmore (List.subset_append_right _ _)
      · exact ih hns (fun m hm => (hbeside m hm).mono hmore) hx
  | @entered past inside others n ns htouches hshows _ _ _ ihInside ihOthers =>
      obtain ⟨hn, hns⟩ := List.forall_mem_cons.1 hsound
      obtain ⟨hhere, hbeside⟩ := List.forall_mem_cons.1 haround
      have hpast : (Visit.enter n true :: (inside ++ .leave n :: others)).reverse ++ past =
          others.reverse ++ .leave n :: (inside.reverse ++ .enter n true :: past) := by simp
      rw [hpast]
      have hmore : past ⊆ .leave n :: (inside.reverse ++ .enter n true :: past) := fun v hv => by
        simp [hv]
      simp only [List.mem_cons, List.mem_append, reduceCtorEq, false_or] at hx
      rcases hx with heq | hx | hx
      · cases heq
        refine ⟨hshows, htouches, hhere.mono ?_⟩
        exact List.Subset.trans hmore (List.subset_append_right _ _)
      · obtain ⟨hshown, htouches, hinside⟩ := ihInside (fun c hc => hn.of_mem_view hc)
          (fun c hc => (hhere.mono (List.subset_cons_self _ _)).of_mem_view hn hc
            fun _ => List.mem_cons_self) hx
        refine ⟨hshown, htouches, hinside.mono ?_⟩
        exact List.Subset.trans (List.subset_cons_self _ _) (List.subset_append_right _ _)
      · exact ihOthers hns (fun m hm => (hbeside m hm).mono hmore) hx

/-- **Whatever ought to be entered is entered**, if no shown node around it has been refused. -/
theorem entered_all {t : Tree} (h : it.Tour past ns vs) (hns : ∀ n ∈ ns, t.Visits it.through n)
    (hx : ∃ n ∈ ns, n.Reaches it.through x) (hshows : it.shows x = true)
    (htouches : it.touches x = true)
    (haround : ∀ a : Node, a.Reaches it.through x → a ≠ x → .enter a false ∉ vs) :
    ∃ into, .enter x into ∈ vs := by
  induction h with
  | nil => simp at hx
  | @outside past others n ns hmiss hothers ih =>
      obtain ⟨hn, hns⟩ := List.forall_mem_cons.1 hns
      rcases Node.reaches_cons.1 hx with hx | hx
      · rw [touches_of_reaches hn hx htouches] at hmiss
        cases hmiss
      · exact ih hns hx haround
  | @through past inside others n ns _ hhidden hinside hothers ihInside ihOthers =>
      obtain ⟨hn, hns⟩ := List.forall_mem_cons.1 hns
      rcases Node.reaches_cons.1 hx with hx | hx
      · cases hx with
        | refl =>
            rw [hhidden] at hshows
            cases hshows
        | step hc hx =>
            obtain ⟨into, hinto⟩ := ihInside (fun c hc => hn.of_mem_view hc) ⟨_, hc, hx⟩
              fun a ha hne hmem => haround a ha hne (List.mem_append_left _ hmem)
            exact ⟨into, List.mem_append_left _ hinto⟩
      · obtain ⟨into, hinto⟩ := ihOthers hns hx fun a ha hne hmem =>
          haround a ha hne (List.mem_append_right _ hmem)
        exact ⟨into, List.mem_append_right _ hinto⟩
  | @refused past others n ns _ _ _ hothers ih =>
      obtain ⟨hn, hns⟩ := List.forall_mem_cons.1 hns
      rcases Node.reaches_cons.1 hx with hx | hx
      · by_cases heq : n = x
        · exact ⟨false, by simp [heq]⟩
        · exact absurd List.mem_cons_self (haround n hx heq)
      · obtain ⟨into, hinto⟩ := ih hns hx fun a ha hne hmem =>
          haround a ha hne (List.mem_cons_of_mem _ hmem)
        exact ⟨into, List.mem_cons_of_mem _ hinto⟩
  | @entered past inside others n ns _ _ _ hinside hothers ihInside ihOthers =>
      obtain ⟨hn, hns⟩ := List.forall_mem_cons.1 hns
      rcases Node.reaches_cons.1 hx with hx | hx
      · cases hx with
        | refl => exact ⟨true, List.mem_cons_self⟩
        | step hc hx =>
            obtain ⟨into, hinto⟩ := ihInside (fun c hc => hn.of_mem_view hc) ⟨_, hc, hx⟩
              fun a ha hne hmem => haround a ha hne (by simp [hmem])
            exact ⟨into, by simp [hinto]⟩
      · obtain ⟨into, hinto⟩ := ihOthers hns hx fun a ha hne hmem =>
          haround a ha hne (by simp [hmem])
        exact ⟨into, by simp [hinto]⟩

end Tour

/-! ### Iterations over trees -/

/-- What the visits of an iteration over a tree have to be. -/
structure Completed (it : Iteration) (t : Tree) (vs : List Visit) : Prop where
  /-- Nodes are entered in pre-order, none of them twice. -/
  ordered : ∃ nodes, Node.PreOrder .forward it.through [t.top] nodes ∧ nodes.Nodup ∧
    (vs.filterMap Visit.entered?).Sublist nodes
  /-- What is entered is shown and touches the range, and all shown nodes around it have been gone
  into; and all such nodes are entered. -/
  entered : ∀ n, (∃ into, .enter n into ∈ vs) ↔
    t.top.Reaches it.through n ∧ it.shows n = true ∧ it.touches n = true ∧
      ∀ a, t.top.Reaches it.through a → a.Reaches it.through n → a ≠ n → it.shows a = true →
        .enter a true ∈ vs
  /-- Whether a node is gone into is what the predicate answers after the visits before. -/
  answered : ∀ before n into after, vs = before ++ .enter n into :: after →
    it.accept before.reverse n = into
  /-- What has been gone into is left, and nothing else. -/
  left : ∀ n, .leave n ∈ vs ↔ .enter n true ∈ vs
  /-- Nothing is left twice. -/
  leftOnce : (vs.filterMap Visit.left?).Nodup
  /-- A node is left after everything below it and before everything else. -/
  nested : Visit.Nested it.through vs

variable {t : Tree}

/-- The loop over a tree makes the visits of a tour. -/
theorem Tour.iterateRange_eq {start stop : Nat} {mode : Mode} {accept : List Visit → Node → Bool}
    (h : Tour { start, stop, mode, accept } [] [t.top] vs)
    (hsound : t.top.Sound { mode with includeAnonymous := true }) :
    t.iterateRange start stop mode accept = vs := by
  let it : Iteration := { start, stop, mode, accept }
  have hlast : it.Ends 0 (it.upward none (vs.reverse ++ [])) vs.reverse := by
    rw [List.append_nil]
    exact .stop
  obtain ⟨rounds, hrounds, hends⟩ := h.ends (List.forall_mem_singleton.2 hsound) (.cons .nil)
    (List.forall_mem_singleton.2 rfl) hlast
  have hfuel : rounds ≤ t.weight * t.weight + 1 := by
    have : Node.extentAll [t.top] = t.weight := Nat.add_zero _
    have := Nat.le_mul_self t.weight
    omega
  rw [Tree.iterateRange, Tree.cursor, hends.runF_eq hfuel, List.reverse_reverse]

/-- Nothing stands around the root. -/
theorem surrounded_top (past : List Visit) : it.Surrounded past t.top := by
  intro a ha hreaches hne _
  rcases hreaches.eq_or_mem with heq | ⟨p, hp, htop⟩
  · exact absurd heq.symm hne
  · have hparent := Node.parentIn_of_mem_view (hp.sound ha) htop
    cases hparent

theorem Tour.completed (h : it.Tour [] [t.top] vs) (htop : t.Visits it.through t.top) :
    it.Completed t vs := by
  have hsound := List.forall_mem_singleton.2 htop.sound
  obtain ⟨nodes, hnodes⟩ := Node.exists_preOrder .forward hsound
  have hnodup := hnodes.nodup hsound (List.pairwise_singleton _ _)
  have hordered := h.entered_sublist hnodes
  have honce := hnodup.sublist hordered
  have hreaches : ∀ v ∈ vs, t.top.Reaches it.through v.node := fun v hv => by
    simpa using h.reaches v hv
  have honly : ∀ n into, .enter n into ∈ vs →
      it.shows n = true ∧ it.touches n = true ∧ it.Surrounded (vs.reverse ++ []) n :=
    fun _ _ => h.entered_only hsound (List.forall_mem_singleton.2 (surrounded_top []))
  refine ⟨⟨nodes, hnodes, hnodup, hordered⟩, fun n => ⟨?_, ?_⟩, ?_, fun n => ?_, ?_,
    h.nested hsound (List.pairwise_singleton _ _)⟩
  · rintro ⟨into, hn⟩
    obtain ⟨hshows, htouches, haround⟩ := honly n into hn
    refine ⟨hreaches _ hn, hshows, htouches, fun a ha habove hne hshown => ?_⟩
    simpa using haround a (ha.sound htop.sound) habove hne hshown
  · rintro ⟨hn, hshows, htouches, haround⟩
    refine h.entered_all (List.forall_mem_singleton.2 htop) (by simpa using hn) hshows htouches
      fun a habove hne hrefused => ?_
    have hinto := haround a (hreaches _ hrefused) habove hne (honly a false hrefused).1
    exact Visit.into_unique honce hinto hrefused
  · rintro before n into after rfl
    have hanswered := (Visit.answeredBy_append.1 h.answered).2.1
    rwa [List.append_nil] at hanswered
  · rw [← Visit.mem_left, h.left_perm.mem_iff, Visit.mem_into]
  · exact h.left_perm.nodup_iff.2 (honce.sublist (Visit.into_sublist vs))

end Iteration

namespace Tree

/-- **Every iteration visits exactly what it should.**  In a well-formed tree, for every range,
every mode and every predicate, be its answers different from time to time: nodes are entered in
pre-order and each at most once; those are entered that are shown and touch the range and around
which all shown nodes were gone into; those are left, and once, that were gone into; and what is
called for the nodes below a node stands between entering and leaving it. -/
theorem iterateRange_completed {t : Tree} (h : t.WellFormed) (start stop : Nat) (mode : Mode)
    (accept : List Visit → Node → Bool) :
    Iteration.Completed { start, stop, mode, accept } t
      (t.iterateRange start stop mode accept) := by
  let it : Iteration := { start, stop, mode, accept }
  have htop : t.Visits it.through t.top := .of_sound h ⟨Visits.valid_buffers h, rfl⟩
  obtain ⟨vs, htour⟩ := Iteration.exists_tour (List.forall_mem_singleton.2 htop.sound) []
  rw [htour.iterateRange_eq htop.sound]
  exact htour.completed htop

/-- Two nodes of one type, the first of which is gone into, while the second one is refused. -/
theorem iterateRange_completed_mixed :
    let accept := fun (past : List Visit) (n : Node) => n.name != "C" || past.length < 8
    let visits := mixedTree.iterateRange 1 4 {} accept
    let seen := fun v => match v with
      | Visit.enter n into => (n.name, n.start, some into)
      | Visit.leave n => (n.name, n.start, none)
    mixedTree.WellFormed ∧
    visits.map seen =
      [("Top", 0, some true), ("A", 0, some true), ("B", 0, some true), ("B", 0, none),
        ("A", 0, none), ("B", 2, some true), ("B", 2, none), ("C", 3, some true), ("C", 3, none),
        ("C", 4, some false), ("Top", 0, none)] ∧
    Iteration.Completed { start := 1, stop := 4, accept } mixedTree visits := by
  intro accept visits seen
  have hformed : mixedTree.WellFormed := by decide
  exact ⟨hformed, by decide +kernel, iterateRange_completed hformed 1 4 {} accept⟩

end Tree

end IncrementalLR
