/-
**How far nodes reach.**

A node may only be taken over into a later tree if the text that was looked at for it is unchanged.
How far past its end that text goes is recorded with the node when it is more than a margin, and
counts as the margin otherwise; the end of that text is the *horizon* of the node.  A node that is
checked by its own reach has to reach as far as everything inside of it.

Where nothing is recorded, horizons are as far apart as ends, so there the law says no more than
that nodes lie inside of their parents.  Balancing a repetition records nothing new if nothing is
recorded inside of it.

Main definitions:

* `Tree.horizon` — how far from its start a node depends on the text;
* `Tree.ReachesChildren` — **the law**: every node reaches as far as its children;
* `Tree.Silent` — nothing is recorded.

Main results:

* `Tree.reachesChildren_of_silent` — formed trees without records obey the law;
* `Tree.silent_balanceWith` — balancing records nothing new;
* `Tree.reachesChildren_stampAll` — stamps do not matter.
-/

import IncrementalLR.Proofs.Balancing
import IncrementalLR.Proofs.Reuse

set_option relaxedAutoImplicit false
set_option autoImplicit false

namespace IncrementalLR

namespace Tree

/-! ### The law -/

/-- How far from its start a node depends on the text. -/
def horizon (t : Tree) : Nat := t.length + t.reach

/-- A child that the law speaks of reaches by a place that is counted from the start of its
parent. -/
def ReachesBy (place : Nat) (c : Nat × Tree) : Prop :=
  c.2.isBranch = true → c.1 + c.2.horizon ≤ place

instance (place : Nat) (c : Nat × Tree) : Decidable (ReachesBy place c) :=
  inferInstanceAs (Decidable (_ → _))

mutual

/-- **Every branch reaches as far as the branches among its children.** -/
def ReachesChildren : Tree → Prop
  | branch stamp ty cs n ps =>
      (∀ c ∈ cs, ReachesBy (branch stamp ty cs n ps).horizon c) ∧ ReachesChildrenAll cs
  | packed _ => True

/-- The same for all children. -/
def ReachesChildrenAll : List (Nat × Tree) → Prop
  | [] => True
  | (_, t) :: rest => ReachesChildren t ∧ ReachesChildrenAll rest

end

mutual

/-- Whether a tree obeys the law can be computed. -/
def decideReachesChildren : (t : Tree) → Decidable t.ReachesChildren
  | branch stamp ty cs n ps =>
      have := decideReachesChildrenAll cs
      inferInstanceAs
        (Decidable
          ((∀ c ∈ cs, ReachesBy (branch stamp ty cs n ps).horizon c) ∧ ReachesChildrenAll cs))
  | packed _ => inferInstanceAs (Decidable True)

/-- The same for all children. -/
def decideReachesChildrenAll : (cs : List (Nat × Tree)) → Decidable (ReachesChildrenAll cs)
  | [] => inferInstanceAs (Decidable True)
  | (_, t) :: rest =>
      have := decideReachesChildren t
      have := decideReachesChildrenAll rest
      inferInstanceAs (Decidable (ReachesChildren t ∧ ReachesChildrenAll rest))

end

instance (t : Tree) : Decidable t.ReachesChildren := decideReachesChildren t

theorem reachesChildrenAll_iff (cs : List (Nat × Tree)) :
    ReachesChildrenAll cs ↔ ∀ c ∈ cs, c.2.ReachesChildren := by
  induction cs with
  | nil => simp [ReachesChildrenAll]
  | cons c rest ih => rw [ReachesChildrenAll, List.forall_mem_cons, ih]

/-! ### New nodes -/

theorem numberProp?_makeBranch (ty : NodeType) (cs : List (Nat × Tree))
    (length lookAhead contextHash : Nat) :
    (makeBranch ty cs length lookAhead contextHash).numberProp? .lookAhead =
      if lookAheadMargin < lookAhead then some (word lookAhead) else none := by
  by_cases hhash : contextHash ≠ 0 <;> by_cases hfar : lookAheadMargin < lookAhead <;>
    simp [makeBranch, numberProp?, prop?, make, props, hhash, hfar, PropKey.perNode, Keyed.find?,
      PropValue.number?]

/-- How far a new node reaches. -/
theorem horizon_makeBranch (ty : NodeType) (cs : List (Nat × Tree)) {length lookAhead : Nat}
    (contextHash : Nat) (hlength : length ≤ maxWord) (hword : lookAhead ≤ maxWord) :
    (makeBranch ty cs length lookAhead contextHash).horizon =
      length + max lookAheadMargin lookAhead := by
  have hmin : (makeBranch ty cs length lookAhead contextHash).length = length :=
    Nat.min_eq_left hlength
  rw [horizon, reach, numberProp?_makeBranch, hmin]
  split
  · rw [Option.getD_some, word_of_le hword]
    omega
  · rw [Option.getD_none]
    omega

theorem reachesChildren_makeBranch (ty : NodeType) {cs : List (Nat × Tree)} {length lookAhead : Nat}
    (contextHash : Nat) (hlength : length ≤ maxWord) (hword : lookAhead ≤ maxWord)
    (h : ∀ c ∈ cs, c.2.ReachesChildren ∧ ReachesBy (length + max lookAheadMargin lookAhead) c) :
    (makeBranch ty cs length lookAhead contextHash).ReachesChildren := by
  have hhorizon := horizon_makeBranch ty cs contextHash hlength hword
  unfold makeBranch make at hhorizon ⊢
  refine ⟨fun c hc => ?_, (reachesChildrenAll_iff cs).2 fun c hc => (h c hc).1⟩
  rw [hhorizon]
  exact (h c hc).2

/-! ### Silence -/

mutual

/-- Nothing is recorded with any branch. -/
def Silent : Tree → Prop
  | branch stamp ty cs n ps =>
      (branch stamp ty cs n ps).numberProp? .lookAhead = none ∧ SilentAll cs
  | packed _ => True

/-- The same for all children. -/
def SilentAll : List (Nat × Tree) → Prop
  | [] => True
  | (_, t) :: rest => Silent t ∧ SilentAll rest

end

theorem silentAll_iff (cs : List (Nat × Tree)) : SilentAll cs ↔ ∀ c ∈ cs, c.2.Silent := by
  induction cs with
  | nil => simp [SilentAll]
  | cons c rest ih => rw [SilentAll, List.forall_mem_cons, ih]

theorem Silent.children {t : Tree} (h : t.Silent) : ∀ c ∈ t.children, c.2.Silent := by
  cases t with
  | branch stamp ty cs n ps => exact (silentAll_iff cs).1 h.2
  | packed b => simp [Tree.children]

theorem Silent.numberProp? {t : Tree} (h : t.Silent) : t.numberProp? .lookAhead = none := by
  cases t with
  | branch stamp ty cs n ps => exact h.1
  | packed b => rfl

theorem Silent.horizon {t : Tree} (h : t.Silent) : t.horizon = t.length + lookAheadMargin := by
  rw [Tree.horizon, reach, h.numberProp?, Option.getD_none]

/-- Children in order reach by the margin past their end. -/
theorem reachesBy_of_silent {P : Buffer → Prop} {lo hi : Nat} {cs : List (Nat × Tree)}
    (hfits : Fits P lo hi cs) (h : ∀ c ∈ cs, c.2.Silent) :
    ∀ c ∈ cs, ReachesBy (hi + lookAheadMargin) c := by
  induction cs generalizing lo with
  | nil => simp
  | cons c rest ih =>
      obtain ⟨hc, hrest⟩ := List.forall_mem_cons.1 h
      obtain ⟨-, -, hfits⟩ := hfits.of_cons
      refine List.forall_mem_cons.2 ⟨fun _ => ?_, ih hfits hrest⟩
      have hend := hfits.le
      rw [hc.horizon]
      omega

mutual

/-- **Formed trees without records obey the law.** -/
theorem reachesChildren_of_silent {P : Buffer → Prop} :
    ∀ {t : Tree}, t.Formed P → t.Silent → t.ReachesChildren
  | branch stamp ty cs n ps, hf, hs => by
      refine ⟨?_, reachesChildrenAll_of_silent hf.2 hs.2⟩
      rw [hs.horizon]
      exact reachesBy_of_silent ⟨hf.1, hf.2⟩ ((silentAll_iff cs).1 hs.2)
  | packed _, _, _ => trivial

theorem reachesChildrenAll_of_silent {P : Buffer → Prop} :
    ∀ {cs : List (Nat × Tree)}, FormedAll P cs → SilentAll cs → ReachesChildrenAll cs
  | [], _, _ => trivial
  | (_, _) :: _, hf, hs =>
      ⟨reachesChildren_of_silent hf.1 hs.1, reachesChildrenAll_of_silent hf.2 hs.2⟩

end

theorem silent_makeBranch (ty : NodeType) {cs : List (Nat × Tree)} (length : Nat) {lookAhead : Nat}
    (contextHash : Nat) (hmargin : lookAhead ≤ lookAheadMargin) (h : ∀ c ∈ cs, c.2.Silent) :
    (makeBranch ty cs length lookAhead contextHash).Silent := by
  have hprop := numberProp?_makeBranch ty cs length lookAhead contextHash
  rw [if_neg (Nat.not_lt.2 hmargin)] at hprop
  exact ⟨hprop, (silentAll_iff cs).2 h⟩

theorem silent_makeRepeat (ty : NodeType) (contextHash : Nat) {cs : List (Nat × Tree)}
    (length : Nat) (h : ∀ c ∈ cs, c.2.Silent) :
    (makeRepeat ty contextHash cs length).Silent := by
  unfold makeRepeat
  cases hlast : cs.getLast? with
  | none => exact silent_makeBranch ty length contextHash (Nat.zero_le _) h
  | some last =>
      obtain ⟨pos, last⟩ := last
      have hquiet : last.Silent := h _ (List.mem_of_getLast? hlast)
      simp only [hquiet.numberProp?, Option.map_none, Option.getD_none]
      split
      · split
        · exact hquiet
        · exact silent_makeBranch ty length contextHash (Nat.zero_le _) h
      · exact silent_makeBranch ty length contextHash (Nat.zero_le _) h

section Balancing

variable {ty : NodeType} {inner : List (Nat × Tree) → Nat → Tree}

/-- Grouping and dividing record nothing new. -/
theorem silent_group_divide
    (hinner : ∀ cs length, (∀ c ∈ cs, c.2.Silent) → (inner cs length).Silent) (fuel : Nat) :
    (∀ (top : List (Nat × Tree) → Nat → Tree) cs start length,
      (∀ cs length, (∀ c ∈ cs, c.2.Silent) → (top cs length).Silent) → (∀ c ∈ cs, c.2.Silent) →
        (groupF ty inner fuel top cs start length).Silent) ∧
    ∀ limit cs offset start, (∀ c ∈ cs, c.2.Silent) →
      ∀ c ∈ divideF ty inner fuel limit cs offset start, c.2.Silent := by
  induction fuel with
  | zero =>
      refine ⟨fun top cs start length htop hcs => ?_, fun limit cs offset start hcs => ?_⟩
      · rw [groupF]
        exact htop cs length hcs
      · rw [divideF]
        exact hcs
  | succ fuel ih =>
      refine ⟨fun top cs start length htop hcs => ?_, fun limit cs offset start hcs => ?_⟩
      · rw [groupF]
        exact htop _ _ (ih.2 _ _ _ _ hcs)
      · cases cs with
        | nil =>
            rw [divideF]
            · simp
            · simp
        | cons c rest =>
            obtain ⟨hc, hrest⟩ := List.forall_mem_cons.1 hcs
            have hsplit := growGroup_append ty limit (c.2.groupSize ty) rest
            rw [divideF]
            generalize growGroup ty limit (c.2.groupSize ty) rest = grown at hsplit ⊢
            obtain ⟨taken, size, after⟩ := grown
            simp only at hsplit ⊢
            subst hsplit
            obtain ⟨htaken, hafter⟩ := List.forall_mem_append.1 hrest
            have hdone := ih.2 limit after offset start hafter
            split
            · split
              · exact List.forall_mem_append.2 ⟨ih.2 _ _ _ _ hc.children, hdone⟩
              · exact List.forall_mem_cons.2 ⟨hc, hdone⟩
            · refine List.forall_mem_cons.2 ⟨ih.1 inner _ _ _ hinner ?_, hdone⟩
              exact List.forall_mem_cons.2 ⟨hc, htaken⟩

end Balancing

/-- **Balancing a repetition records nothing new.** -/
theorem silent_balanceWith (ty : NodeType) (contextHash : Nat) {cs : List (Nat × Tree)}
    (length : Nat) (h : ∀ c ∈ cs, c.2.Silent) :
    (balanceWith ty (makeRepeat ty contextHash) (makeRepeat ty contextHash) cs length).Silent :=
  (silent_group_divide (fun _ length => silent_makeRepeat ty contextHash length) _).1 _ cs 0 length
    (fun _ length => silent_makeRepeat ty contextHash length) h

/-! ### Stamps -/

theorem horizon_number (epoch n : Nat) (t : Tree) :
    (t.number epoch n).1.horizon = t.horizon := by
  cases t with
  | branch stamp ty cs len ps => cases stamp <;> rfl
  | packed b =>
      cases hb : b.stamp with
      | none =>
          rw [number, hb]
          rfl
      | some _ => rw [number, hb]

theorem isBranch_number (epoch n : Nat) (t : Tree) :
    (t.number epoch n).1.isBranch = t.isBranch := by
  cases t with
  | branch stamp ty cs len ps => cases stamp <;> rfl
  | packed b =>
      cases hb : b.stamp with
      | none =>
          rw [number, hb]
          rfl
      | some _ => rw [number, hb]

theorem reachesBy_numberAll (epoch place : Nat) (cs : List (Nat × Tree)) (n : Nat)
    (h : ∀ c ∈ cs, ReachesBy place c) : ∀ c ∈ (numberAll epoch cs n).1, ReachesBy place c := by
  induction cs generalizing n with
  | nil => simp [numberAll]
  | cons c rest ih =>
      obtain ⟨hc, hrest⟩ := List.forall_mem_cons.1 h
      rw [numberAll]
      refine List.forall_mem_cons.2 ⟨fun hbranch => ?_, ih _ hrest⟩
      simp only at hbranch ⊢
      rw [isBranch_number] at hbranch
      rw [horizon_number]
      exact hc hbranch

mutual

theorem reachesChildren_number (epoch : Nat) : ∀ (t : Tree) (n : Nat), t.ReachesChildren →
    (t.number epoch n).1.ReachesChildren
  | branch (some _) _ _ _ _, _, h => h
  | branch none _ cs _ _, n, h =>
      ⟨reachesBy_numberAll epoch _ cs (n + 1) h.1,
        reachesChildrenAll_numberAll epoch cs (n + 1) h.2⟩
  | packed b, n, _ => by
      cases hb : b.stamp <;> simp only [number, hb] <;> trivial

theorem reachesChildrenAll_numberAll (epoch : Nat) : ∀ (cs : List (Nat × Tree)) (n : Nat),
    ReachesChildrenAll cs → ReachesChildrenAll (numberAll epoch cs n).1
  | [], _, _ => trivial
  | (_, t) :: rest, n, h =>
      ⟨reachesChildren_number epoch t n h.1, reachesChildrenAll_numberAll epoch rest _ h.2⟩

end

/-- Stamping keeps the law. -/
theorem reachesChildren_stampAll (epoch : Nat) {t : Tree} (h : t.ReachesChildren) :
    (t.stampAll epoch).ReachesChildren :=
  reachesChildren_number epoch t 0 h

end Tree

end IncrementalLR
