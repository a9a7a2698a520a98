/-
**Balanced nodes are narrow, and groups do not nest deeply.**

Dividing puts children into groups that stay below three sixteenths of them, and fills each group as
far as that goes before it begins the next one.  So a node has at most ten children in the end: ten
of ten, where the limit is too low for groups of two, and less from eleven on.  Inside a group the
limit is counted anew, so that each level takes three sixteenths of what is left.

The recursion is told here without fuel, as a relation that holds of what dividing ends with; that
the relation holds of what is computed says that the recursion comes to an end.  A group is as long
as the text from the start of its first child to the end of its last one.  If that end comes before
the start, there is no such length, and a machine ends the program; it does not where no child ends
before one in front of it starts.

Main definitions:

* `Tree.Divided` — what dividing children ends with;
* `Tree.Plain`, `Tree.Grouped` — children none of which is a grouping node, and how they are put
  into groups;
* `Tree.Ascending` — children none of which ends before one in front of it starts;
* `Tree.GroupBelow` — the groups of a balanced node, with their level below it;
* `Tree.gathered` — the children that were put into a node.

Main results:

* `Tree.divideF_divided` — dividing comes to an end;
* `Tree.Grouped.width_le` — at most ten children;
* `Tree.balance_narrow` — **a balanced node is narrow, its groups are small, and their level is
  logarithmic**;
* `Tree.balance_halts` — a group that ends before it starts.
-/

import Mathlib.Data.Nat.Log
import Mathlib.Tactic.Ring
import IncrementalLR.Proofs.Operations
import IncrementalLR.Proofs.Spreads

set_option relaxedAutoImplicit false
set_option autoImplicit false

namespace IncrementalLR

namespace Tree

/-! ### Dividing without fuel -/

section Dividing

variable {ty : NodeType} {inner : List (Nat × Tree) → Nat → Tree}

/-- What dividing children ends with, given the limit, the offset of the children and the place that
positions are counted from: a child that is too large gives way to its children, any other child
that nothing is added to is kept, and children that fit together are divided in a node of their
own, which is as long as the text that they take.  A position before the place that it is counted
from is stored as zero. -/
inductive Divided (ty : NodeType) (inner : List (Nat × Tree) → Nat → Tree) :
    Nat → List (Nat × Tree) → Nat → Nat → List (Nat × Tree) → Prop
  | done {limit offset start : Nat} : Divided ty inner limit [] offset start []
  | opened {limit offset start size : Nat} {c : Nat × Tree}
      {rest after out out' : List (Nat × Tree)} :
      growGroup ty limit (c.2.groupSize ty) rest = ([], size, after) →
      (limit < size && c.2.isBranch) = true →
      Divided ty inner limit c.2.children (c.1 + offset) start out →
      Divided ty inner limit after offset start out' →
      Divided ty inner limit (c :: rest) offset start (out ++ out')
  | kept {limit offset start size : Nat} {c : Nat × Tree} {rest after out : List (Nat × Tree)} :
      growGroup ty limit (c.2.groupSize ty) rest = ([], size, after) →
      (limit < size && c.2.isBranch) = false →
      Divided ty inner limit after offset start out →
      Divided ty inner limit (c :: rest) offset start ((word (c.1 + offset - start), c.2) :: out)
  | grouped {limit offset start size length : Nat} {c last : Nat × Tree}
      {rest taken after inside out : List (Nat × Tree)} :
      growGroup ty limit (c.2.groupSize ty) rest = (taken, size, after) →
      taken.getLast? = some last → c.1 + length = last.1 + last.2.length →
      Divided ty inner (groupLimit (totalSize ty (c :: taken))) (c :: taken) 0 c.1 inside →
      Divided ty inner limit after offset start out →
      Divided ty inner limit (c :: rest) offset start
        ((word (c.1 + offset - start), inner inside length) :: out)

/-- **Dividing comes to an end**: with enough fuel it computes what the recursion ends with, if no
difference ends the program.  It takes less fuel where the limit is that of the children themselves,
since a group then leaves some of them out. -/
theorem divideF_divided (fuel : Nat) :
    ∀ (limit : Nat) (cs : List (Nat × Tree)) (offset start : Nat),
    3 * weightAll cs + 2 ≤ fuel ∨ (3 * weightAll cs ≤ fuel ∧ limit ≤ totalSize ty cs) →
    (∀ op ∈ Builder.divideOpsF ty fuel limit cs, op.halts = false) →
      Divided ty inner limit cs offset start (divideF ty inner fuel limit cs offset start) := by
  -- a group takes two steps: one to its node, one to its children
  induction fuel using Nat.strong_induction_on with
  | _ fuel ih =>
    intro limit cs offset start hfuel hgoes
    cases cs with
    | nil =>
        cases fuel with
        | zero =>
            rw [divideF]
            exact .done
        | succ fuel =>
            rw [divideF]
            · exact .done
            · simp
    | cons c rest =>
      have hpos := weightAll_cons_pos c rest
      obtain ⟨fuel, rfl⟩ : ∃ k, fuel = k + 1 := ⟨fuel - 1, by omega⟩
      have hsmall := weight_group_lt ty limit c rest
      have hsplit := growGroup_append ty limit (c.2.groupSize ty) rest
      rw [divideF]
      rw [Builder.divideOpsF] at hgoes
      cases hgrow : growGroup ty limit (c.2.groupSize ty) rest with
      | mk taken grown =>
        obtain ⟨size, after⟩ := grown
        rw [hgrow] at hsmall hsplit hgoes
        simp only at hsmall hsplit hgoes ⊢
        subst hsplit
        have hweight : weightAll (c :: (taken ++ after)) =
            c.2.weight + weightAll taken + weightAll after := by
          rw [weightAll, weightAll_append]
          omega
        have hc := c.2.weight_pos
        have hdone := ih fuel (by omega) limit after offset start (Or.inl (by omega))
        cases hlast : taken.getLast? with
        | none =>
            obtain rfl : taken = [] := List.getLast?_eq_none_iff.1 hlast
            rw [hlast] at hgoes
            simp only at hgoes ⊢
            split
            · rename_i hopen
              rw [if_pos hopen, List.forall_mem_append] at hgoes
              have hchildren := weight_children (Bool.and_eq_true_iff.1 hopen).2
              have hinside := ih fuel (by omega) limit c.2.children (c.1 + offset) start
                (Or.inl (by omega)) hgoes.1
              exact .opened hgrow hopen hinside (hdone hgoes.2)
            · rename_i hkeep
              rw [if_neg hkeep] at hgoes
              exact .kept hgrow (Bool.eq_false_iff.2 hkeep) (hdone hgoes)
        | some last =>
            have hne : taken ≠ [] := by
              rintro rfl
              cases hlast
            have hgroup : 3 * weightAll (c :: taken) + 1 ≤ fuel := by
              rcases hfuel with hfuel | ⟨hfuel, hlimit⟩
              · simp only [weightAll]
                omega
              · have := hsmall hlimit hne
                omega
            obtain ⟨fuel, rfl⟩ : ∃ k, fuel = k + 1 := ⟨fuel - 1, by omega⟩
            rw [hlast] at hgoes
            simp only at hgoes ⊢
            rw [List.forall_mem_cons, List.forall_mem_append, Builder.groupOpsF] at hgoes
            obtain ⟨hends, hgroupGoes, hafter⟩ := hgoes
            simp only [Operation.halts, decide_eq_false_iff_not, Nat.not_lt] at hends
            rw [groupF]
            exact .grouped hgrow hlast (by omega) (ih fuel (by omega) _ _ _ _
              (Or.inr ⟨by omega, groupLimit_le _⟩) hgroupGoes) (hdone hafter)

end Dividing

/-- A constructor of groups. -/
def makeGroup (cs : List (Nat × Tree)) (length : Nat) : Tree := make .none cs length []

/-! ### Plain children -/

/-- Children none of which is a grouping node. -/
def Plain (cs : List (Nat × Tree)) : Prop := ∀ c ∈ cs, c.2.isOfType .none = false

theorem Plain.of_infix {cs run : List (Nat × Tree)} (h : Plain cs) (hrun : run <:+: cs) :
    Plain run := fun c hc => h c (hrun.subset hc)

theorem groupSize_of_plain {t : Tree} (h : t.isOfType .none = false) : t.groupSize .none = 1 := by
  cases t with
  | packed b => rfl
  | branch stamp ty cs length ps =>
      have hsame : ty.same .none = false := h
      rw [groupSize, hsame]
      simp

theorem Plain.totalSize {cs : List (Nat × Tree)} (h : Plain cs) :
    totalSize .none cs = cs.length := by
  induction cs with
  | nil => rfl
  | cons c rest ih =>
      obtain ⟨hc, hrest⟩ := List.forall_mem_cons.1 h
      rw [Tree.totalSize, groupSize_of_plain hc, ih hrest, List.length_cons, Nat.add_comm]

/-- As many children are added to a group as stay below the limit. -/
theorem Plain.growGroup {rest : List (Nat × Tree)} (h : Plain rest) (limit size : Nat) :
    (growGroup .none limit size rest).1 = rest.take (limit - 1 - size) ∧
      (growGroup .none limit size rest).2.2 = rest.drop (limit - 1 - size) := by
  induction rest generalizing size with
  | nil => simp [Tree.growGroup]
  | cons c rest ih =>
      obtain ⟨hc, hrest⟩ := List.forall_mem_cons.1 h
      rw [Tree.growGroup, groupSize_of_plain hc]
      split
      · rename_i hfull
        rw [show limit - 1 - size = 0 by omega]
        exact ⟨rfl, rfl⟩
      · rename_i hroom
        obtain ⟨htaken, hafter⟩ := ih hrest (size + 1)
        rw [show limit - 1 - size = (limit - 1 - (size + 1)) + 1 by omega]
        exact ⟨congrArg (c :: ·) htaken, hafter⟩

/-- How plain children are grouped: they stay single where the limit is too low for more or none is
left, and all groups but the last take one child less than the limit. -/
inductive Grouped : Nat → List (Nat × Tree) → List (Nat × Tree) → Prop
  | nil {limit : Nat} : Grouped limit [] []
  | child {limit pos : Nat} {c : Nat × Tree} {rest out : List (Nat × Tree)} :
      rest = [] ∨ limit ≤ 2 → Grouped limit rest out → Grouped limit (c :: rest) ((pos, c.2) :: out)
  | group {limit pos length : Nat} {run rest inside out : List (Nat × Tree)} :
      2 ≤ run.length → run.length < limit → rest = [] ∨ run.length + 1 = limit →
      Grouped (groupLimit run.length) run inside → Grouped limit rest out →
      Grouped limit (run ++ rest) ((pos, makeGroup inside length) :: out)

theorem groupLimit_pos_of_ne_nil {cs : List (Nat × Tree)} (h : cs ≠ []) :
    1 ≤ groupLimit cs.length := by
  have := List.length_pos_iff.2 h
  rw [groupLimit]
  omega

/-- Dividing groups plain children. -/
theorem Divided.grouped_of_plain {limit offset start : Nat} {cs out : List (Nat × Tree)}
    (h : Divided .none makeGroup limit cs offset start out) (hplain : Plain cs)
    (hlimit : 1 ≤ limit) : Grouped limit cs out := by
  induction h with
  | done => exact .nil
  | @opened limit offset start size c rest after out out' hgrow hopen =>
      -- a plain child does not exceed the limit
      have hsize := growGroup_size .none limit (c.2.groupSize .none) rest
      rw [hgrow, groupSize_of_plain (hplain c List.mem_cons_self)] at hsize
      simp only [Tree.totalSize] at hsize
      simp only [Bool.and_eq_true, decide_eq_true_eq] at hopen
      omega
  | @kept limit offset start size c rest after out hgrow _ hrest ih =>
      obtain ⟨hc, hplainRest⟩ := List.forall_mem_cons.1 hplain
      obtain ⟨htaken, hafter⟩ := Plain.growGroup hplainRest limit (c.2.groupSize .none)
      rw [hgrow, groupSize_of_plain hc] at htaken hafter
      simp only at htaken hafter
      obtain hone | rfl := List.take_eq_nil_iff.1 htaken.symm
      · rw [hone, List.drop_zero] at hafter
        subst hafter
        exact .child (Or.inr (by omega)) (ih hplainRest hlimit)
      · rw [List.drop_nil] at hafter
        subst hafter
        exact .child (Or.inl rfl) (ih hplainRest hlimit)
  | @grouped limit offset start size length c last rest taken after inside out hgrow hlast _ _ _
      ihInside ihRest =>
      have hsplit := growGroup_append .none limit (c.2.groupSize .none) rest
      obtain ⟨hc, hplainRest⟩ := List.forall_mem_cons.1 hplain
      obtain ⟨htaken, hafter⟩ := Plain.growGroup hplainRest limit (c.2.groupSize .none)
      rw [hgrow, groupSize_of_plain hc] at htaken hafter
      rw [hgrow] at hsplit
      simp only at htaken hafter hsplit
      have hne : taken ≠ [] := by
        rintro rfl
        cases hlast
      have hpos := List.length_pos_iff.2 hne
      have hlength := congrArg List.length htaken
      rw [List.length_take] at hlength
      have hplainRun : Plain (c :: taken) := hplain.of_infix
        (List.IsPrefix.isInfix ⟨after, by rw [List.cons_append, hsplit]⟩)
      have hinside := ihInside hplainRun (by
        rw [hplainRun.totalSize]
        exact groupLimit_pos_of_ne_nil (List.cons_ne_nil _ _))
      rw [hplainRun.totalSize] at hinside
      rw [← hsplit, ← List.cons_append]
      refine .group ?_ ?_ ?_ hinside (ihRest (Plain.of_infix hplainRest
        (List.IsSuffix.isInfix ⟨taken, hsplit⟩)) hlimit)
      · rw [List.length_cons]
        omega
      · rw [List.length_cons]
        omega
      · rw [List.length_cons]
        rcases Nat.le_total rest.length (limit - 1 - 1) with hall | hmore
        · exact Or.inl (by rw [hafter, List.drop_of_length_le hall])
        · exact Or.inr (by omega)

/-! ### Widths -/

section Grouped

variable {limit : Nat} {cs out : List (Nat × Tree)}

theorem Grouped.eq_nil (h : Grouped limit [] out) : out = [] := by
  generalize hcs : ([] : List (Nat × Tree)) = cs at h
  cases h with
  | nil => rfl
  | child => cases hcs
  | group hmany =>
      rw [(List.append_eq_nil_iff.1 hcs.symm).1] at hmany
      simp at hmany

/-- All but the last of the parts are full. -/
theorem Grouped.width (h : Grouped limit cs out) (hlimit : 1 ≤ limit) :
    out.length * max 1 (limit - 1) < cs.length + max 1 (limit - 1) := by
  generalize hm : max 1 (limit - 1) = m
  induction h with
  | nil =>
      simp only [List.length_nil]
      omega
  | child hfull hrest ih =>
      have hbound := ih hlimit hm
      simp only [List.length_cons, Nat.succ_mul]
      obtain rfl | hlow := hfull
      · obtain rfl := hrest.eq_nil
        simp
      · obtain rfl : m = 1 := by omega
        omega
  | group hmany hless hfull _ hrest _ ih =>
      have hbound := ih hlimit hm
      simp only [List.length_cons, List.length_append, Nat.succ_mul]
      obtain rfl | hlength := hfull
      · obtain rfl := hrest.eq_nil
        simp only [List.length_nil, Nat.zero_mul]
        omega
      · omega

/-- **A node has at most ten children** if it is divided by the limit of its own children. -/
theorem Grouped.width_le (h : Grouped (groupLimit cs.length) cs out) : out.length ≤ 10 := by
  by_cases hcs : cs = []
  · subst hcs
    simp [h.eq_nil]
  · have hwidth := h.width (groupLimit_pos_of_ne_nil hcs)
    by_contra hwide
    have hmul : 11 * max 1 (groupLimit cs.length - 1) ≤
        out.length * max 1 (groupLimit cs.length - 1) := Nat.mul_le_mul_right _ (by omega)
    rw [groupLimit] at hwidth hmul
    omega

/-! ### Groups -/

/-- A group holds fewer children than three sixteenths of those that it is one of the groups of. -/
theorem length_of_lt_groupLimit {k n : Nat} (h : k < groupLimit n) : 16 * k < 3 * n := by
  rw [groupLimit] at h
  omega

theorem spread_of_plain {t : Tree} (h : t.isOfType .none = false) (base : Nat) :
    t.spread base = [(base, t)] := by
  cases t with
  | packed b => rfl
  | branch stamp ty cs length ps =>
      have hsame : ty.same .none = false := h
      rw [spread, if_neg (by simp [hsame])]

/-- Grouping keeps the children in their order. -/
theorem Grouped.gathers (h : Grouped limit cs out) (hplain : Plain cs) (base : Nat) :
    (spreadAll out base).map Prod.snd = cs.map Prod.snd := by
  induction h generalizing base with
  | nil => rfl
  | child _ _ ih =>
      obtain ⟨hc, hrest⟩ := List.forall_mem_cons.1 hplain
      rw [spreadAll, spread_of_plain hc, List.map_append, ih hrest]
      rfl
  | @group limit pos length run rest inside out _ _ _ _ _ ihInside ihRest =>
      obtain ⟨hrun, hrest⟩ := List.forall_mem_append.1 hplain
      have hopen : (makeGroup inside length).spread (base + pos) = spreadAll inside (base + pos) :=
        rfl
      rw [spreadAll, hopen, List.map_append, List.map_append, ihInside hrun, ihRest hrest]

/-- A grouping node among the parts is a group of some of the children in a row. -/
theorem Grouped.group_of_mem (h : Grouped limit cs out) (hplain : Plain cs) {c : Nat × Tree}
    (hc : c ∈ out) (hgroup : c.2.isOfType .none = true) :
    ∃ run inside length, c.2 = makeGroup inside length ∧ run <:+: cs ∧ 2 ≤ run.length ∧
      run.length < limit ∧ Grouped (groupLimit run.length) run inside := by
  induction h with
  | nil => cases hc
  | child _ _ ih =>
      obtain ⟨hone, hrest⟩ := List.forall_mem_cons.1 hplain
      obtain rfl | hc := List.mem_cons.1 hc
      · rw [hone] at hgroup
        cases hgroup
      · obtain ⟨run, inside, length, heq, hwithin, hrun⟩ := ih hrest hc
        exact ⟨run, inside, length, heq, hwithin.trans (List.suffix_cons _ _).isInfix, hrun⟩
  | @group limit pos length run rest inside out hmany hless _ hinside _ _ ih =>
      obtain ⟨hrun, hrest⟩ := List.forall_mem_append.1 hplain
      obtain rfl | hc := List.mem_cons.1 hc
      · exact ⟨run, inside, length, rfl, (List.prefix_append _ _).isInfix, hmany, hless, hinside⟩
      · obtain ⟨run', inside', length', heq, hwithin, hrun'⟩ := ih hrest hc
        exact ⟨run', inside', length', heq, hwithin.trans (List.suffix_append _ _).isInfix, hrun'⟩

end Grouped

/-- The nodes that were put above the children of a node: it itself, and on each further level the
grouping nodes among the children. -/
inductive GroupBelow (t : Tree) : Nat → Tree → Prop
  | root : GroupBelow t 0 t
  | child {d : Nat} {g : Tree} {c : Nat × Tree} : GroupBelow t d g → c ∈ g.children →
      c.2.isOfType .none = true → GroupBelow t (d + 1) c.2

/-- The children that were put into a node, grouping nodes replaced by what was put into them. -/
def gathered (t : Tree) : List Tree := (spreadAll t.children 0).map Prod.snd

/-- What holds of the groups on a level below a node that was put above `cs`. -/
theorem GroupBelow.small {t g : Tree} {d : Nat} {cs : List (Nat × Tree)} (h : GroupBelow t d g)
    (ht : Grouped (groupLimit cs.length) cs t.children) (hplain : Plain cs) :
    ∃ run, run <:+: cs ∧ Grouped (groupLimit run.length) run g.children ∧
      16 ^ d * run.length ≤ 3 ^ d * cs.length ∧
      (1 ≤ d → 2 ≤ run.length ∧ 16 ^ d * run.length < 3 ^ d * cs.length) := by
  induction h with
  | root => exact ⟨cs, List.infix_rfl, ht, by simp, by simp⟩
  | @child d g c _ hc hgroup ih =>
      obtain ⟨run, hwithin, hgrouped, hle, -⟩ := ih
      obtain ⟨run', inside, length, heq, hwithin', hmany, hless, hgrouped'⟩ :=
        hgrouped.group_of_mem (hplain.of_infix hwithin) hc hgroup
      have hlt : 16 ^ (d + 1) * run'.length < 3 ^ (d + 1) * cs.length := by
        calc 16 ^ (d + 1) * run'.length = 16 ^ d * (16 * run'.length) := by ring
          _ < 16 ^ d * (3 * run.length) :=
              Nat.mul_lt_mul_of_pos_left (length_of_lt_groupLimit hless) (Nat.pow_pos (by decide))
          _ = 3 * (16 ^ d * run.length) := by ring
          _ ≤ 3 * (3 ^ d * cs.length) := Nat.mul_le_mul_left 3 hle
          _ = 3 ^ (d + 1) * cs.length := by ring
      refine ⟨run', hwithin'.trans hwithin, ?_, hlt.le, fun _ => ⟨hmany, hlt⟩⟩
      rw [heq]
      exact hgrouped'

/-- A level whose groups hold at least one child is logarithmic in the number of children. -/
theorem level_le_log {d k n : Nat} (hk : 1 ≤ k) (h : 16 ^ d * k < 3 ^ d * n) : d ≤ Nat.log 5 n := by
  have hfive : 3 ^ d * 5 ^ d < 3 ^ d * n := by
    calc 3 ^ d * 5 ^ d = 15 ^ d := by rw [← Nat.mul_pow]
      _ ≤ 16 ^ d := Nat.pow_le_pow_left (by decide) d
      _ ≤ 16 ^ d * k := Nat.le_mul_of_pos_right _ hk
      _ < 3 ^ d * n := h
  have hlt : 5 ^ d < n := Nat.lt_of_mul_lt_mul_left hfive
  exact Nat.le_log_of_pow_le (by decide) hlt.le

/-- Children none of which ends before one in front of it starts. -/
def Ascending (cs : List (Nat × Tree)) : Prop := cs.Pairwise fun a b => a.1 ≤ b.1 + b.2.length

instance (cs : List (Nat × Tree)) : Decidable (Ascending cs) :=
  inferInstanceAs (Decidable (List.Pairwise _ cs))

/-- Plain children that ascend can be grouped. -/
theorem groupable_plain : Builder.Groupable .none fun cs => Plain cs ∧ Ascending cs where
  split := fun ⟨hplain, hascending⟩ => by
    obtain ⟨hleft, hright⟩ := List.forall_mem_append.1 hplain
    obtain ⟨hleft', hright', -⟩ := List.pairwise_append.1 hascending
    exact ⟨⟨hleft, hleft'⟩, hright, hright'⟩
  reach := fun ⟨_, hascending⟩ _ hx => List.rel_of_pairwise_cons hascending hx
  opened := fun ⟨hplain, _⟩ _ hsize => by
    rw [groupSize_of_plain (hplain _ List.mem_cons_self)] at hsize
    omega

/-- Where no difference ends the program, the groups are those that dividing ends with. -/
theorem divided_of_balanceChecked {t b : Tree} (hmany : branchFactor < t.children.length)
    (h : t.balanceChecked = some b) :
    ∃ out, Divided .none makeGroup (groupLimit (totalSize .none t.children)) t.children 0 0 out ∧
      b = make t.type out t.length t.props := by
  unfold balanceChecked at h
  split at h
  · cases h
  · rename_i hgoes
    rw [Bool.not_eq_true, List.any_eq_false, balanceOps, if_neg (Nat.not_le.2 hmany),
      Builder.balanceOps, Builder.groupOpsF] at hgoes
    refine ⟨_, divideF_divided (3 * weightAll t.children) _ _ _ _
      (Or.inr ⟨Nat.le_refl _, groupLimit_le _⟩) fun op hop => by simpa using hgoes op hop, ?_⟩
    rw [← Option.some.inj h, balance, if_neg (Nat.not_le.2 hmany), balanceWith, groupF]
    rfl

/-- **A balanced node is narrow, its groups are small, and their level is logarithmic.**  A machine
balances children that ascend.  Where it does not end the program, the recursion comes to an end;
each node that it makes has at most ten children; what is gathered in a group are children that
stood in a row; and on level `d` these are fewer than `(3 / 16) ^ d` of all of them. -/
theorem balance_narrow {t : Tree} (hmany : branchFactor < t.children.length)
    (hplain : Plain t.children) :
    (Ascending t.children → t.balanceChecked = some t.balance) ∧
    ∀ b, t.balanceChecked = some b →
      (∃ out, Divided .none makeGroup (groupLimit (totalSize .none t.children)) t.children 0 0 out ∧
        b = make t.type out t.length t.props) ∧
      b.gathered = t.children.map Prod.snd ∧
      ∀ d g, GroupBelow b d g → g.children.length ≤ 10 ∧
        (1 ≤ d → g.gathered <:+: t.children.map Prod.snd ∧
          16 ^ d * g.gathered.length < 3 ^ d * t.children.length ∧
          d ≤ Nat.log 5 t.children.length) := by
  refine ⟨fun hascending => if_neg ?_, fun b hchecked => ?_⟩
  · have hgranted := Builder.balanceOps_granted (Q := fun op => op.halts = false) groupable_plain
      (fun {a b} hle => by simpa [Operation.halts] using hle) ⟨hplain, hascending⟩
    rw [Bool.not_eq_true, List.any_eq_false, balanceOps, if_neg (Nat.not_le.2 hmany)]
    intro op hop
    rw [hgranted op hop]
    exact Bool.false_ne_true
  · obtain ⟨out, hdivided, hbalance⟩ := divided_of_balanceChecked hmany hchecked
    have hgrouped : Grouped (groupLimit t.children.length) t.children b.children := by
      have hne : t.children ≠ [] :=
        List.ne_nil_of_length_pos (Nat.lt_of_le_of_lt (Nat.zero_le _) hmany)
      have hlimit := groupLimit_pos_of_ne_nil hne
      rw [← hplain.totalSize] at hlimit ⊢
      rw [hbalance, children_make]
      exact hdivided.grouped_of_plain hplain hlimit
    refine ⟨⟨out, hdivided, hbalance⟩, hgrouped.gathers hplain 0, fun d g hg => ?_⟩
    obtain ⟨run, hwithin, hrun, -, hsmall⟩ := hg.small hgrouped hplain
    have hgathered : g.gathered = run.map Prod.snd := hrun.gathers (hplain.of_infix hwithin) 0
    refine ⟨hrun.width_le, fun hd => ?_⟩
    obtain ⟨htwo, hlt⟩ := hsmall hd
    rw [hgathered, List.length_map]
    exact ⟨hwithin.map Prod.snd, hlt, level_le_log (by omega) hlt⟩

/-- A row of items under one node. -/
def rowOf (n : Nat) : Tree :=
  make { epoch := 1, id := 0, name := "List" } ((List.range n).map fun i => (i, item)) n []

/-- Forty items are put into five groups of seven and one of five. -/
theorem balance_narrow_forty :
    (branchFactor < (rowOf 40).children.length ∧ Plain (rowOf 40).children ∧
      Ascending (rowOf 40).children) ∧
    (rowOf 40).balanceChecked = some (rowOf 40).balance ∧
    ((rowOf 40).balance.children.map fun c => c.2.children.length) = [7, 7, 7, 7, 7, 5] ∧
    ∀ d g, GroupBelow (rowOf 40).balance d g → g.children.length ≤ 10 ∧
      (1 ≤ d → g.gathered <:+: (rowOf 40).children.map Prod.snd ∧
        16 ^ d * g.gathered.length < 3 ^ d * (rowOf 40).children.length ∧
        d ≤ Nat.log 5 (rowOf 40).children.length) := by
  have hmany : branchFactor < (rowOf 40).children.length := by decide
  have hplain : Plain (rowOf 40).children := by
    intro c hc
    obtain ⟨i, -, rfl⟩ := List.mem_map.1 hc
    rfl
  have hascending : Ascending (rowOf 40).children := by decide +kernel
  have hchecked := (balance_narrow hmany hplain).1 hascending
  exact ⟨⟨hmany, hplain, hascending⟩, hchecked, by decide +kernel,
    ((balance_narrow hmany hplain).2 _ hchecked).2.2⟩

/-- Items that stand the other way round, with a gap between each two. -/
def rowBack (n : Nat) : Tree :=
  make { epoch := 1, id := 0, name := "List" }
    ((List.range n).map fun i => (2 * (n - 1 - i), item)) (2 * n) []

/-- **A group that ends before it starts.**  The limit for eleven children lets two of them into a
group, and the second one ends before the first one starts. -/
theorem balance_halts : branchFactor < (rowBack 11).children.length ∧ Plain (rowBack 11).children ∧
    ¬ Ascending (rowBack 11).children ∧ (rowBack 11).balanceChecked = none := by
  have hplain : Plain (rowBack 11).children := by
    intro c hc
    obtain ⟨i, -, rfl⟩ := List.mem_map.1 hc
    rfl
  exact ⟨by decide, hplain, by decide +kernel, by decide +kernel⟩

end Tree

end IncrementalLR
