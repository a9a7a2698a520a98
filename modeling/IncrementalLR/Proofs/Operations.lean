/-
**What a builder asks of a machine.**

The operations of a build on a forest of records are in order: differences do not fall below zero,
offsets into a buffer are no longer than a buffer may be, and indices into it are bounded by the
number of nodes in a stretch of text.  This is proved once for any predicate on operations that such
operations satisfy, by following the build; what is to be said of overflows and of slots of 16 bits
are two cases of it.

Main definitions:

* `Operation.Granted` — a predicate that holds of operations in order;
* `BuildPlan.Suits` — records that are few and not too deep;
* `Builder.Groupable` — a property of children no group of which ends before it starts;
* `Builder.GrantsNode`, `Builder.GrantsChildren` — taking with some fuel keeps to such operations.

Main results:

* `Builder.packOps_granted`, `Builder.takeFlatOps_granted` — the operations of filling a buffer;
* `Builder.balanceOps_granted` — the operations of balancing;
* `Builder.take_granted` — the operations of taking nodes;
* `Tree.buildFromOps_granted` — **all operations of a build are in order**.
-/

import IncrementalLR.Proofs.Building
import IncrementalLR.Tree.Arithmetic

set_option relaxedAutoImplicit false
set_option autoImplicit false

namespace IncrementalLR

/-- A predicate that holds of all operations in order: differences from zero on, sums of a length of
a buffer and a position up to `last`, offsets into a buffer, and indices for up to `most` nodes. -/
structure Operation.Granted (Q : Operation → Prop) (d : BuildPlan) (last most : Nat) : Prop where
  minus : ∀ {a b : Nat}, b ≤ a → Q (.minus a b)
  reach : ∀ {stop : Nat}, stop ≤ last → Q (.plus maxPos stop d.maxBuffer)
  offset : ∀ {n : Nat}, n ≤ d.maxBuffer → Q (.write n)
  index : ∀ {n : Nat}, n ≤ 4 * most → Q (.write n)

namespace BuildPlan

/-- What is asked where nodes are flattened: indices are counted in 16 bits then, and a node without
children gets a buffer of its own, however long it is. -/
structure Flattens (d : BuildPlan) (Q : Operation → Prop) (most : Nat) (rs : List Record) :
    Prop where
  pos : 0 < most
  next : ∀ {index : Nat}, index + 4 ≤ 4 * most → Q (.plus 65535 (Builder.half index) 4)
  span : ∀ r ∈ rs, r.isLeaf → ∀ n : Nat, n ≤ r.stop - r.start → Q (.write n)

/-- Records with up to `levels` levels that are taken `depth` levels deep: few of them lie in a
stretch of text, their ids may be written, and they are not flattened, or may be. -/
structure Suits (d : BuildPlan) (Q : Operation → Prop) (most depth levels : Nat)
    (rs : List Record) : Prop where
  sparse : d.Sparse most rs
  ids : ∀ r ∈ rs, r.isNode → Q (.write r.id)
  level : depth + levels ≤ cutoffDepth + 1 ∨ d.Flattens Q most rs

namespace Suits

variable {d : BuildPlan} {Q : Operation → Prop} {most depth levels : Nat} {rs rest : List Record}

theorem sublist (h : d.Suits Q most depth levels rs) (hsub : rest.Sublist rs) :
    d.Suits Q most depth levels rest := by
  refine ⟨h.sparse.sublist hsub, fun r hr => h.ids r (hsub.subset hr), ?_⟩
  exact h.level.imp_right fun hflat =>
    ⟨hflat.pos, hflat.next, fun r hr => hflat.span r (hsub.subset hr)⟩

/-- Below a node there is one level less. -/
theorem below {m : Nat} (h : d.Suits Q most depth (m + 1) rs) (hsub : rest.Sublist rs) :
    d.Suits Q most (depth + 1) m rest := by
  obtain ⟨hsparse, hids, hlevel⟩ := h.sublist hsub
  exact ⟨hsparse, hids, hlevel.imp_left fun hle => by omega⟩

end Suits

end BuildPlan

namespace Builder

section Operations

variable {Q : Operation → Prop} {d : BuildPlan} {last most : Nat}

/-! ### Copying -/

/-- The nodes of a run that are copied lie in one stretch of text. -/
theorem kept_le_of_sparse {taken : List Record} {lo hi : Int}
    (hnested : Nested (fun r => d.drops r = true) lo hi taken) (hroom : hi ≤ lo + d.maxBuffer)
    (hsparse : d.Sparse most taken) : kept d taken ≤ most := by
  refine Nat.le_trans (List.countP_mono_left fun r hr hkept => ?_) (hsparse lo)
  rw [Bool.not_eq_true'] at hkept
  rcases hnested.inside r hr with hdrops | ⟨hlo, hhi⟩
  · rw [hkept] at hdrops
    cases hdrops
  · simp only [BuildPlan.drops, Bool.or_eq_false_iff, decide_eq_false_iff_not] at hkept
    simp only [BuildPlan.isWithin, Record.isNode, Bool.and_eq_true, decide_eq_true_eq]
    omega

/-- A record that is left out takes no operation. -/
theorem copyNodeOpsF_of_drops {base fuel index : Nat} {b : Builder} {out : List Nat}
    (h : d.drops b.reader.record = true) : copyNodeOpsF d base fuel b index out = [] := by
  cases fuel with
  | zero => rfl
  | succ fuel =>
      rw [copyNodeOpsF]
      simp only
      rw [if_neg]
      simp only [BuildPlan.drops, Bool.or_eq_true, decide_eq_true_eq] at h
      simp only [Bool.and_eq_true, decide_eq_true_eq]
      omega

/-- Copying a node with some fuel takes operations in order. -/
def GrantsNodeCopy (Q : Operation → Prop) (d : BuildPlan) (base most fuel : Nat) : Prop :=
  ∀ {c : Record} {inner below : List Record} {b : Builder} {index i : Nat} {out : List Nat},
    b.reader.Holds (c :: (inner ++ below)) → d.drops c = false → c.size = 4 * (inner.length + 1) →
    Nested (fun r => d.drops r = true) c.start c.stop inner → 2 * (inner.length + 1) ≤ fuel →
    index = i + 4 + 4 * kept d inner → index ≤ 4 * most → base ≤ c.start →
    c.stop ≤ base + d.maxBuffer → (∀ r ∈ c :: inner, r.isNode → Q (.write r.id)) →
      ∀ op ∈ copyNodeOpsF d base fuel b index out, Q op

/-- Copying a run with some fuel takes operations in order. -/
def GrantsRunCopy (Q : Operation → Prop) (d : BuildPlan) (base most fuel : Nat) : Prop :=
  ∀ {seg below : List Record} {b : Builder} {lo hi : Int} {index i : Nat} {out : List Nat},
    b.reader.Holds (seg ++ below) → Nested (fun r => d.drops r = true) lo hi seg →
    2 * seg.length + 1 ≤ fuel → index = i + 4 * kept d seg → index ≤ 4 * most → base ≤ lo →
    hi ≤ base + d.maxBuffer → (∀ r ∈ seg, r.isNode → Q (.write r.id)) →
      ∀ op ∈ copyRunOpsF d base fuel (4 * below.length) b index out, Q op

theorem copyNodeOpsF_step {base fuel : Nat} (hQ : Operation.Granted Q d last most)
    (hrun : GrantsRunCopy Q d base most fuel) : GrantsNodeCopy Q d base most (fuel + 1) := by
  intro c inner below b index i out hb hdrops hsize hinner hfuel hindex hmost hbase hroom hids
  obtain ⟨hrecord, hnext⟩ := hb.next
  rw [List.forall_mem_cons] at hids
  have hrange := hinner.le
  have hstart : (c.startPos : Int) = c.start := Record.startPos_eq (by omega)
  have hstop : (c.stopPos : Int) = c.stop := Record.stopPos_eq (by omega)
  have hkeep : (decide (0 ≤ c.size) && decide (c.id < d.repeatFrom)) = true := by
    simp only [BuildPlan.drops, Bool.or_eq_false_iff, decide_eq_false_iff_not] at hdrops
    simp only [Bool.and_eq_true, decide_eq_true_eq]
    omega
  have hpos := hnext.pos_eq
  rw [List.length_append] at hpos
  have hslots : b.next.reader.pos - (c.size.toNat - 4) = 4 * below.length := by
    simp only [Builder.next]
    omega
  -- the slots of the node stand in front of those that were copied from below it
  have hinnerIndex : (if 4 < c.size then
      copyRunF d base fuel (4 * below.length) b.next index out
      else (b.next, index, out)).2.1 = i + 4 := by
    split
    · exact ((copy_spec d base fuel).2 hnext hinner (by omega) (by omega)).index_eq
    · obtain rfl : inner = [] := List.eq_nil_of_length_eq_zero (by omega)
      exact hindex
  rw [copyNodeOpsF]
  simp only [hrecord, hkeep, if_true, hslots, hinnerIndex]
  rw [List.forall_mem_append]
  constructor
  · simp only [List.forall_mem_cons, List.not_mem_nil, false_implies, implies_true, and_true]
    refine ⟨hQ.minus (by omega), hids.1 (by simp [Record.isNode]; omega), hQ.minus (by omega),
      hQ.offset (by omega), hQ.minus (by omega), hQ.offset (by omega), hQ.index hmost⟩
  · split
    · rw [List.forall_mem_cons]
      refine ⟨hQ.minus (by simp only [Builder.next]; omega), ?_⟩
      exact hrun hnext hinner (by omega) (by omega : index = i + 4 + _) hmost (by omega)
        (by omega) hids.2
    · simp

theorem copyRunOpsF_step {base fuel : Nat} (hnode : GrantsNodeCopy Q d base most fuel)
    (hrun : GrantsRunCopy Q d base most fuel) : GrantsRunCopy Q d base most (fuel + 1) := by
  intro seg below b lo hi index i out hb hseg hfuel hindex hmost hbase hroom hids
  have hpos := hb.pos_eq
  rw [copyRunOpsF]
  cases seg with
  | nil =>
      rw [if_pos (by rw [hpos]; simp)]
      simp
  | cons c rest =>
      rw [List.cons_append] at hb hpos
      simp only [List.length_cons, List.length_append] at hpos hfuel
      obtain ⟨hrecord, hnext⟩ := hb.next
      rw [if_neg (by omega)]
      simp only
      cases hdrops : d.drops c with
      | true =>
          have hkept : kept d (c :: rest) = kept d rest := by
            unfold kept
            rw [List.countP_cons_of_neg (by simp [hdrops])]
          rw [copyNodeOpsF_of_drops (by rw [hrecord]; exact hdrops), List.append_nil,
            copyNodeF_of_drops (by rw [hrecord]; exact hdrops) (by omega), hrecord]
          refine hrun ?_ hseg.tail (by omega) (by rw [← hkept]; exact hindex) hmost hbase hroom
            fun r hr => hids r (List.mem_cons_of_mem c hr)
          rw [reader_mark]
          exact hnext
      | false =>
          rcases hseg.head_cases with ⟨hclear, _⟩ |
            ⟨inner, outer, rfl, _, hsize, hstop, hinner, houter⟩
          · rw [hdrops] at hclear
            cases hclear
          · have hcount : kept d (c :: (inner ++ outer)) = kept d outer + 1 + kept d inner := by
              unfold kept
              rw [List.countP_cons_of_pos (by simp [hdrops]), List.countP_append]
              omega
            have hlo := houter.le
            have hrange := hinner.le
            rw [List.append_assoc] at hb
            simp only [List.length_append] at hfuel
            rw [List.forall_mem_cons, List.forall_mem_append] at hids
            have hcopied : Copied base c.start c.stop (outer ++ below) (i + 4 * kept d outer)
                index out (copyNodeF d base fuel b index out) :=
              (copy_spec d base fuel).1 hb hdrops hsize hinner (by omega) (by omega)
            rw [hcopied.index_eq, List.forall_mem_append]
            constructor
            · exact hrun hcopied.reader houter (by omega) rfl (by omega) hbase (by omega) hids.2.2
            · exact hnode hb hdrops hsize hinner (by omega)
                (by omega : index = i + 4 * kept d outer + 4 + _) hmost (by omega) (by omega)
                (List.forall_mem_cons.2 ⟨hids.1, hids.2.1⟩)

/-- Copying takes operations in order. -/
theorem copyOps_granted (hQ : Operation.Granted Q d last most) (base fuel : Nat) :
    GrantsNodeCopy Q d base most fuel ∧ GrantsRunCopy Q d base most fuel := by
  induction fuel with
  | zero =>
      constructor
      · intro _ _ _ _ _ _ _ _ _ _ _ hfuel
        omega
      · intro _ _ _ _ _ _ _ _ _ _ hfuel
        omega
  | succ fuel ih => exact ⟨copyNodeOpsF_step hQ ih.2, copyRunOpsF_step ih.1 ih.2⟩

/-- **Packing a run takes operations in order.** -/
theorem packOps_granted (hQ : Operation.Granted Q d last most) {b : Builder} {run : Run}
    {levels stop : Nat} {lo mid : Int} {seg below taken rest : List Record}
    (hb : b.reader.Holds (seg ++ below))
    (hrun : run.Covers d levels (stop - d.maxBuffer) lo stop seg taken rest mid) (hne : taken ≠ [])
    (hsparse : d.Sparse most seg) (hids : ∀ r ∈ seg, r.isNode → Q (.write r.id)) :
    ∀ op ∈ packOps d b run stop, Q op := by
  obtain ⟨rfl, hsize, hskip, htaken, hrest, hstart, hmin⟩ := hrun
  have hstart := hstart hne
  have hmin := hmin hne
  have hend := htaken.le
  have hcount := length_eq_kept d taken
  have hkept : run.size - run.skip = 0 + 4 * kept d taken := by omega
  have hmost : kept d taken ≤ most :=
    kept_le_of_sparse htaken (by omega) (hsparse.sublist (List.sublist_append_left taken rest))
  rw [List.append_assoc] at hb
  have hpos := hb.pos_eq
  simp only [List.length_append] at hpos
  have hslots : b.reader.pos - run.size = 4 * (rest ++ below).length := by
    rw [List.length_append]
    omega
  unfold packOps
  simp only [hslots]
  rw [List.forall_mem_append]
  constructor
  · simp only [List.forall_mem_cons, List.not_mem_nil, false_implies, implies_true, and_true]
    exact ⟨hQ.minus (by omega), hQ.minus (by omega), hQ.minus (by omega)⟩
  · exact (copyOps_granted hQ run.start _).2 hb htaken (by omega) hkept (by omega) (by omega)
      (by omega) fun r hr => hids r (List.mem_append_left rest hr)

/-! ### Flattening -/

/-- What is collected after a first node starts where it fits into a buffer with it. -/
theorem collectF_front (minPos floor fuel : Nat) (b : Builder) (nodes : List Record) :
    ∃ front, (collectF d minPos fuel b (some floor) nodes).2 = front ++ nodes ∧
      ∀ c ∈ front, c.isLeaf ∧ floor ≤ c.startPos := by
  induction fuel generalizing b nodes with
  | zero => exact ⟨[], rfl, by simp⟩
  | succ fuel ih =>
      rw [collectF]
      split
      · exact ⟨[], rfl, by simp⟩
      · split
        · exact ih _ _
        · split
          · exact ⟨[], rfl, by simp⟩
          · rename_i hsmall hstop
            simp only [Option.any_some, Bool.or_eq_true, decide_eq_true_eq, not_or] at hstop
            obtain ⟨front, heq, hfront⟩ := ih b.next (b.reader.record :: nodes)
            refine ⟨front ++ [b.reader.record], ?_, ?_⟩
            · rw [Option.getD_some, heq, List.append_assoc]
              rfl
            · rw [List.forall_mem_append, List.forall_mem_singleton]
              refine ⟨hfront, ?_, by omega⟩
              simp only [Record.isLeaf, Record.isNode, Bool.and_eq_true, decide_eq_true_eq]
              omega

/-- What is collected is nothing, or a last node with others in front of it that fit into a buffer
with it. -/
theorem collectF_cases (minPos fuel : Nat) (b : Builder) :
    (collectF d minPos fuel b none []).2 = [] ∨
      ∃ front c, (collectF d minPos fuel b none []).2 = front ++ [c] ∧ c.isLeaf ∧
        ∀ x ∈ front, x.isLeaf ∧ c.stopPos - d.maxBuffer ≤ x.startPos := by
  induction fuel generalizing b with
  | zero => exact Or.inl rfl
  | succ fuel ih =>
      rw [collectF]
      split
      · exact Or.inl rfl
      · split
        · exact ih _
        · split
          · exact Or.inl rfl
          · rename_i hsmall hstop
            simp only [Option.any_none, Bool.or_false, decide_eq_true_eq] at hstop
            rw [Option.getD_none]
            obtain ⟨front, heq, hfront⟩ := collectF_front (d := d) minPos
              (b.reader.record.stopPos - d.maxBuffer) fuel b.next [b.reader.record]
            refine Or.inr ⟨front, b.reader.record, heq, ?_, hfront⟩
            simp only [Record.isLeaf, Record.isNode, Bool.and_eq_true, decide_eq_true_eq]
            omega

/-- Writing nodes without children takes operations in order. -/
theorem flatSlotsOps_granted (hQ : Operation.Granted Q d last most)
    (hnext : ∀ {index : Nat}, index + 4 ≤ 4 * most → Q (.plus 65535 (half index) 4))
    {base index : Nat} {lo hi : Int} {nodes : List Record} (hbase : base ≤ lo)
    (h : InLine lo hi nodes) (hspan : ∀ n : Nat, n ≤ hi - base → Q (.write n))
    (hids : ∀ c ∈ nodes, Q (.write c.id)) (hindex : index + 4 * nodes.length ≤ 4 * most) :
    ∀ op ∈ flatSlotsOps base index nodes, Q op := by
  induction nodes generalizing index lo with
  | nil => simp [flatSlotsOps]
  | cons c rest ih =>
      obtain ⟨hlo, hc, hrest⟩ := h
      have hend := hrest.le
      have hstart : (c.startPos : Int) = c.start := Record.startPos_eq (by omega)
      have hstop : (c.stopPos : Int) = c.stop := Record.stopPos_eq (by omega)
      rw [List.forall_mem_cons] at hids
      rw [List.length_cons] at hindex
      rw [flatSlotsOps, List.forall_mem_append]
      constructor
      · simp only [List.forall_mem_cons, List.not_mem_nil, false_implies, implies_true, and_true]
        exact ⟨hids.1, hQ.minus (by omega), hspan _ (by omega), hQ.minus (by omega),
          hspan _ (by omega), hnext (by omega), hQ.index (by omega)⟩
      · exact ih (by omega) hrest hids.2 (by omega)

/-- **Flattening takes operations in order**, where it may be done. -/
theorem takeFlatOps_granted (hQ : Operation.Granted Q d last most)
    {levels depth parentStart hi : Nat}
    {seg below : List Record} {b : Builder} (hb : b.reader.Holds (seg ++ below))
    (hseg : d.Forest levels parentStart hi seg) (hsuits : d.Suits Q most depth levels seg)
    (hflat : d.Flattens Q most seg) :
    ∀ op ∈ takeFlatOps d (4 * below.length) b, Q op := by
  have hnone : InLine hi hi [] := Int.le_refl _
  obtain ⟨taken, rest, mid, hcollected⟩ : ∃ taken rest mid,
      Collected d levels parentStart hi seg below []
        (collectF d (4 * below.length) b.reader.pos b none []) taken rest mid :=
    collectF_spec b.reader.pos hb hseg hnone
  unfold takeFlatOps
  simp only
  rcases collectF_cases (d := d) (4 * below.length) b.reader.pos b with
    heq | ⟨front, c, heq, hleaf, hfront⟩
  · rw [heq]
    simp
  · obtain ⟨rfl, -, hforest, hline, hsub⟩ := hcollected
    rw [heq] at hline hsub ⊢
    rw [List.reverse_nil, List.nil_append] at hsub
    have hmem : ∀ x ∈ front ++ [c], x ∈ taken ++ rest := fun x hx =>
      List.mem_append_left rest (hsub.subset (List.mem_reverse.2 hx))
    have hnode : ∀ x ∈ front ++ [c], x.isNode := by
      rw [List.forall_mem_append, List.forall_mem_singleton]
      exact ⟨fun x hx => Record.isNode_of_isLeaf (hfront x hx).1, Record.isNode_of_isLeaf hleaf⟩
    have hids : ∀ x ∈ front ++ [c], Q (.write x.id) := fun x hx =>
      hsuits.ids x (hmem x hx) (hnode x hx)
    have hlast : (front ++ [c]).getLast? = some c := List.getLast?_concat
    obtain ⟨hline, -⟩ := hline.to_last hlast
    have hmid := hforest.le
    cases front with
    | nil =>
        -- a single node is as long as it is
        obtain ⟨hlo, hrange, -⟩ := hline
        have hstart : (c.startPos : Int) = c.start := Record.startPos_eq (by omega)
        have hstop : (c.stopPos : Int) = c.stop := Record.stopPos_eq (by omega)
        have hpos := hflat.pos
        simp only [List.nil_append, List.getLast?_singleton, List.forall_mem_cons]
        refine ⟨hQ.minus (by omega), flatSlotsOps_granted hQ hflat.next (Int.le_refl _)
          ⟨by omega, hrange, Int.le_refl c.stop⟩ (fun n hn => ?_) hids (by simp; omega)⟩
        exact hflat.span c (hmem c (by simp)) hleaf n (by omega)
    | cons first front =>
        -- the others start where they fit into a buffer
        have hfloor := (hfront first List.mem_cons_self).2
        rw [List.cons_append] at hline
        obtain ⟨hlo, hrange, hrest⟩ := hline
        have hend := hrest.le
        have hstart : (first.startPos : Int) = first.start := Record.startPos_eq (by omega)
        have hstop : (c.stopPos : Int) = c.stop := Record.stopPos_eq (by omega)
        have hall : InLine first.start c.stop (first :: (front ++ [c])) :=
          ⟨Int.le_refl _, hrange, hrest⟩
        have hwithin : ∀ x ∈ first :: (front ++ [c]), d.isWithin first.start x = true := by
          intro x hx
          have hin := hall.inside x hx
          simp only [BuildPlan.isWithin, hnode x hx, Bool.true_and, Bool.and_eq_true,
            decide_eq_true_eq]
          omega
        have hfew : (first :: (front ++ [c])).length ≤ most := by
          have hcount := hsub.countP_le (p := d.isWithin first.start)
          rw [List.countP_reverse, List.cons_append, List.countP_eq_length.2 hwithin] at hcount
          have hmost := (hsuits.sublist (List.sublist_append_left taken rest)).sparse first.start
          omega
        rw [List.cons_append] at hlast hids
        simp only [List.cons_append, hlast]
        rw [List.forall_mem_cons]
        exact ⟨hQ.minus (by omega), flatSlotsOps_granted hQ hflat.next (by omega) hall
          (fun n hn => hQ.offset (by omega)) hids (by omega)⟩

/-! ### Groups -/

/-- A property of lists of children that dividing them keeps to, and by which no group ends before
it starts. -/
structure Groupable (ty : NodeType) (K : List (Nat × Tree) → Prop) : Prop where
  split : ∀ {cs cs' : List (Nat × Tree)}, K (cs ++ cs') → K cs ∧ K cs'
  reach : ∀ {c : Nat × Tree} {rest : List (Nat × Tree)}, K (c :: rest) →
    ∀ x ∈ rest, c.1 ≤ x.1 + x.2.length
  opened : ∀ {c : Nat × Tree} {rest : List (Nat × Tree)}, K (c :: rest) → c.2.isBranch = true →
    1 < c.2.groupSize ty → K c.2.children

section Balancing

variable {K : List (Nat × Tree) → Prop} {ty : NodeType} {fuel : Nat}

/-- Grouping with some fuel takes operations in order. -/
def GrantsGroup (Q : Operation → Prop) (K : List (Nat × Tree) → Prop) (ty : NodeType)
    (fuel : Nat) : Prop :=
  ∀ {cs : List (Nat × Tree)}, K cs → ∀ op ∈ groupOpsF ty fuel cs, Q op

/-- Dividing with some fuel takes operations in order. -/
def GrantsDivide (Q : Operation → Prop) (K : List (Nat × Tree) → Prop) (ty : NodeType)
    (fuel : Nat) : Prop :=
  ∀ {limit : Nat} {cs : List (Nat × Tree)}, (cs ≠ [] → 1 ≤ limit) → K cs →
    ∀ op ∈ divideOpsF ty fuel limit cs, Q op

theorem divideOpsF_step (hK : Groupable ty K) (hminus : ∀ {a b : Nat}, b ≤ a → Q (.minus a b))
    (hgroup : GrantsGroup Q K ty fuel) (hdivide : GrantsDivide Q K ty fuel) :
    GrantsDivide Q K ty (fuel + 1) := by
  intro limit cs hlimit h
  cases cs with
  | nil => simp [divideOpsF]
  | cons c rest =>
      have hone : 1 ≤ limit := hlimit (List.cons_ne_nil c rest)
      have hsplit := Tree.growGroup_append ty limit (c.2.groupSize ty) rest
      have hsize := Tree.growGroup_size ty limit (c.2.groupSize ty) rest
      rw [divideOpsF]
      generalize Tree.growGroup ty limit (c.2.groupSize ty) rest = grown at hsplit hsize ⊢
      obtain ⟨taken, size, after⟩ := grown
      simp only at hsplit hsize ⊢
      subst hsplit
      rw [← List.cons_append] at h
      obtain ⟨hrun, hafter⟩ := hK.split h
      cases hlast : taken.getLast? with
      | none =>
          obtain rfl : taken = [] := List.getLast?_eq_none_iff.1 hlast
          simp only [Tree.totalSize, Nat.add_zero] at hsize
          subst hsize
          simp only
          split
          · -- the child gives way to its children
            rename_i hopen
            rw [Bool.and_eq_true, decide_eq_true_eq] at hopen
            rw [List.forall_mem_append]
            exact ⟨hdivide (fun _ => hone) (hK.opened hrun hopen.2 (by omega)),
              hdivide (fun _ => hone) hafter⟩
          · exact hdivide (fun _ => hone) hafter
      | some last =>
          have hreach := hK.reach hrun last (List.mem_of_getLast? hlast)
          simp only
          rw [List.forall_mem_cons, List.forall_mem_append]
          exact ⟨hminus hreach, hgroup hrun, hdivide (fun _ => hone) hafter⟩

/-- Grouping and dividing take operations in order. -/
theorem groupOps_granted (hK : Groupable ty K) (hminus : ∀ {a b : Nat}, b ≤ a → Q (.minus a b))
    (fuel : Nat) : GrantsGroup Q K ty fuel ∧ GrantsDivide Q K ty fuel := by
  induction fuel with
  | zero =>
      constructor
      · intro _ _
        simp [groupOpsF]
      · intro _ _ _ _
        simp [divideOpsF]
  | succ fuel ih =>
      refine ⟨fun {cs} h => ?_, divideOpsF_step hK hminus ih.1 ih.2⟩
      rw [groupOpsF]
      refine ih.2 (fun hne => ?_) h
      obtain ⟨c, rest, rfl⟩ := List.exists_cons_of_ne_nil hne
      exact Tree.groupLimit_pos ty c rest

/-- **Balancing takes operations in order.** -/
theorem balanceOps_granted (hK : Groupable ty K) (hminus : ∀ {a b : Nat}, b ≤ a → Q (.minus a b))
    {cs : List (Nat × Tree)} (h : K cs) : ∀ op ∈ balanceOps ty cs, Q op :=
  (groupOps_granted hK hminus _).1 h

/-- Children that fit can be grouped. -/
theorem groupable_fits (P : Buffer → Prop) (ty : NodeType) :
    Groupable ty fun cs => ∃ lo hi, Tree.Fits P lo hi cs where
  split := fun ⟨lo, hi, h⟩ => by
    obtain ⟨mid, hleft, hright⟩ := h.split
    exact ⟨⟨lo, mid, hleft⟩, mid, hi, hright⟩
  reach := fun ⟨lo, hi, h⟩ x hx => by
    obtain ⟨-, -, hrest⟩ := h.of_cons
    have hin := hrest.inside x hx
    omega
  opened := fun ⟨lo, hi, h⟩ hbranch _ => by
    obtain ⟨-, hc, -⟩ := h.of_cons
    exact ⟨_, _, hc.fits_children hbranch⟩

end Balancing

section Families

variable {p : Parent} {f : Family} {ungrouped grouped : List (Nat × Tree)}

/-- Finishing the leaf of a repetition takes operations in order. -/
theorem Family.Fitted.closeOps_granted (hminus : ∀ {a b : Nat}, b ≤ a → Q (.minus a b))
    {hi start : Nat} (h : f.Fitted p hi ungrouped grouped) (hstart : p.start ≤ start)
    (hle : start ≤ hi) : ∀ op ∈ f.closeOps p start, Q op := by
  have hhi := h.hi_le
  have hcount : f.children.length - f.grouped = ungrouped.length := by
    rw [h.children_eq, List.length_append, h.grouped_eq]
    omega
  rw [Family.closeOps, hcount, h.children_eq, List.take_left, List.forall_mem_append]
  constructor
  · intro op hop
    obtain ⟨c, hc, rfl⟩ := List.mem_map.1 hop
    have hin := h.fits_ungrouped.inside c hc
    exact hminus (by omega)
  · simp only [List.forall_mem_cons, List.not_mem_nil, false_implies, implies_true, and_true]
    exact ⟨hminus (by omega), hminus hstart⟩

/-- Making the node of a family takes operations in order. -/
theorem Family.Fitted.nodeOps_granted (hminus : ∀ {a b : Nat}, b ≤ a → Q (.minus a b))
    (h : f.Fitted p p.start ungrouped grouped) (hword : p.stop - p.start ≤ maxWord) :
    ∀ op ∈ f.nodeOps p, Q op := by
  have hstart := h.hi_le
  have hstop := h.stop_le
  rw [Family.nodeOps, List.forall_mem_cons]
  refine ⟨hminus (by omega), ?_⟩
  split
  · split
    · obtain ⟨leaf, hclosed⟩ := h.close hword (Nat.le_refl _) (Nat.le_refl _)
      rw [List.forall_mem_append]
      exact ⟨h.closeOps_granted hminus (Nat.le_refl _) (Nat.le_refl _),
        balanceOps_granted (groupable_fits _ _) hminus ⟨_, _, hclosed.fits⟩⟩
    · exact balanceOps_granted (groupable_fits _ _) hminus ⟨_, _, h.fits⟩
  · simp

end Families

/-! ### Nodes -/

/-- Taking a node with some fuel takes operations in order. -/
def GrantsNode (Q : Operation → Prop) (d : BuildPlan) (last most fuel : Nat) : Prop :=
  ∀ {levels parentStart hi depth : Nat} {inRepeat : Int} {seg below : List Record} {b : Builder},
    b.reader.Holds (seg ++ below) → seg ≠ [] → hi ≤ parentStart + maxWord → hi ≤ last →
    d.Forest levels parentStart hi seg → d.Suits Q most depth levels seg →
    2 * seg.length ≤ fuel → inRepeat = -1 ∨ d.repeatFrom ≤ inRepeat →
    (∀ c ∈ seg.head?, 0 ≤ inRepeat → 0 ≤ c.size → c.id ≠ inRepeat) →
      ∀ op ∈ takeNodeOpsF d fuel (4 * below.length) inRepeat depth b, Q op

/-- Taking the children of a parent with some fuel takes operations in order. -/
def GrantsChildren (Q : Operation → Prop) (d : BuildPlan) (last most fuel : Nat) : Prop :=
  ∀ {levels : Nat} {p : Parent} {hi : Nat} {seg below : List Record} {f : Family} {b : Builder}
      {ungrouped grouped : List (Nat × Tree)},
    b.reader.Holds (seg ++ below) → p.stop ≤ p.start + maxWord → p.stop ≤ last →
    d.Forest levels p.start hi seg → d.Suits Q most (p.depth + 1) levels seg →
    2 * seg.length + 1 ≤ fuel → p.inRepeat = -1 ∨ d.repeatFrom ≤ p.inRepeat →
    f.Fitted p hi ungrouped grouped →
      ∀ op ∈ takeChildrenOpsF d fuel p (4 * below.length) f b, Q op

theorem takeNodeOpsF_step (hQ : Operation.Granted Q d last most) {fuel : Nat}
    (hchildren : GrantsChildren Q d last most fuel) : GrantsNode Q d last most (fuel + 1) := by
  intro levels parentStart hi depth inRepeat seg below b hb hne hword hlast hseg hsuits hfuel
    hrepeat
    hfirst
  cases seg with
  | nil => exact absurd rfl hne
  | cons c rest =>
      obtain ⟨hrecord, hnext⟩ := hb.next
      have hpos := hb.pos_eq
      simp only [List.cons_append, List.length_cons, List.length_append] at hpos hfuel
      have hroom : Q (.minus b.reader.pos (4 * below.length)) := hQ.minus (by omega)
      rw [takeNodeOpsF]
      simp only [hrecord]
      split
      · simp
      · rename_i hsize
        split
        · simpa using hroom
        · obtain ⟨m, inner, outer, rfl, rfl, hid, hsize, hstop, hinner, houter⟩ :=
            hseg.head_level (by omega)
          have hlo := houter.le
          have hrange := hinner.le
          have hstartPos : (c.startPos : Int) = c.start := Record.startPos_eq (by omega)
          have hstopPos : (c.stopPos : Int) = c.stop := Record.stopPos_eq (by omega)
          split
          · simpa using hroom
          · rename_i ty _
            have hspan : Q (.minus c.stopPos c.startPos) := hQ.minus (by omega)
            rw [List.forall_mem_append]
            refine ⟨by simp [hroom, hspan], ?_⟩
            split
            · -- a run of nodes that fit into one buffer
              rename_i run hrun
              have hfound : findRun d b.reader (4 * below.length) inRepeat = some run := by
                split at hrun
                · exact hrun
                · cases hrun
              have hnode : d.Forest (m + 1) parentStart c.stopPos (c :: (inner ++ outer)) := by
                rw [hstopPos]
                exact (hseg.head_tree hsize).append houter
              obtain ⟨taken, left, mid, hne', hcovers⟩ := findRun_covers (by omega) hrepeat hb hnode
                (by simpa using fun heq => hfirst c rfl (by omega) (by omega) heq) hfound
              rw [hrecord] at hcovers
              exact packOps_granted hQ hb hcovers hne' hsuits.sparse hsuits.ids
            · -- a node with its children
              simp only [List.length_append] at hfuel hpos
              have hslots : b.reader.pos - c.size.toNat = 4 * (outer ++ below).length := by
                rw [List.length_append]
                omega
              simp only [hslots]
              rw [List.append_eq, List.append_assoc] at hnext
              have hbelow : d.Forest m c.startPos c.stopPos inner := by
                rw [hstartPos, hstopPos]
                exact hinner
              have hsub : inner.Sublist (c :: (inner ++ outer)) :=
                (List.sublist_append_left inner outer).cons c
              have hnone : Family.Fitted
                  { type := ty, start := c.startPos, stop := c.stopPos,
                    inRepeat := if d.repeatFrom ≤ c.id then c.id else -1,
                    lookAhead := b.lookAhead, contextHash := b.contextHash, depth }
                  c.stopPos { groupStop := c.stopPos } [] [] := .start (by simp only; omega)
              rw [List.forall_mem_cons, List.forall_mem_append]
              refine ⟨hQ.minus (by omega), ?_, ?_⟩
              · exact hchildren hnext (by simp only; omega) (by simp only; omega) hbelow
                  (hsuits.below hsub) (by omega) (repeat_cases d c) hnone
              · split
                · rename_i r htake
                  obtain ⟨-, ungrouped, grouped, hfitted⟩ := (take_spec d fuel).2 hnext
                    (by simp only; omega) hbelow (by omega) (repeat_cases d c) hnone htake
                  exact hfitted.nodeOps_granted hQ.minus (by simp only; omega)
                · simp

/-- The operations on the children after some that were taken. -/
theorem GrantsChildren.goOn {fuel levels hi mid : Nat} {p : Parent} {seg below rest : List Record}
    {ungrouped grouped new : List (Nat × Tree)} {f : Family} {r : List (Nat × Tree) × Builder}
    (hchildren : GrantsChildren Q d last most fuel)
    (htaken : Taken d levels p.start hi seg below f.children r rest mid new)
    (hword : p.stop ≤ p.start + maxWord) (hlast : p.stop ≤ last)
    (hsuits : d.Suits Q most (p.depth + 1) levels seg) (hfuel : 2 * seg.length ≤ fuel)
    (hrepeat : p.inRepeat = -1 ∨ d.repeatFrom ≤ p.inRepeat)
    (hfitted : f.Fitted p hi ungrouped grouped) :
    ∀ op ∈ takeChildrenOpsF d fuel p (4 * below.length) { f with children := r.1 } r.2, Q op := by
  have hshorter := htaken.shorter
  have hmid := htaken.forest.le
  have hfits := htaken.fits.le
  have hstart := hfitted.start_le
  rw [htaken.children_eq]
  exact hchildren htaken.reader hword hlast htaken.forest (hsuits.sublist htaken.suffix.sublist)
    (by omega) hrepeat (hfitted.addChildren (by omega) (by omega) htaken.fits)

theorem takeChildrenOpsF_step (hQ : Operation.Granted Q d last most) {fuel : Nat}
    (hnode : GrantsNode Q d last most fuel) (hchildren : GrantsChildren Q d last most fuel) :
    GrantsChildren Q d last most (fuel + 1) := by
  intro levels p hi seg below f b ungrouped grouped hb hword hlast hseg hsuits hfuel hrepeat hfitted
  have hpos := hb.pos_eq
  have hstart := hseg.le
  have hgroup := hfitted.hi_le
  have hend := hfitted.stop_le
  rw [takeChildrenOpsF]
  cases seg with
  | nil =>
      rw [if_pos (by rw [hpos]; simp)]
      simp
  | cons c rest =>
      rw [List.cons_append] at hb hpos
      obtain ⟨hrecord, hnext⟩ := hb.next
      simp only [List.length_cons, List.length_append] at hpos hfuel
      simp only [hrecord]
      rw [if_neg (by omega)]
      split
      · -- a node of the repetition itself may finish a leaf
        rename_i hsame
        simp only [Bool.and_eq_true, decide_eq_true_eq] at hsame
        obtain ⟨inner, outer, rfl, hid, hsize, hstop, hinner, houter⟩ :=
          hseg.head_node (by omega)
        have hlo := houter.le
        have hrange := hinner.le
        have hstopPos : (c.stopPos : Int) = c.stop := Record.stopPos_eq (by omega)
        have hrest : d.Forest levels p.start c.stopPos (inner ++ outer) := by
          rw [hstopPos]
          exact hinner.append houter
        have hsuits' := hsuits.sublist (List.sublist_cons_self c (inner ++ outer))
        have hfitted' : f.Fitted p c.stopPos ungrouped grouped :=
          hfitted.mono (by omega) (by omega)
        rw [List.forall_mem_cons]
        refine ⟨hQ.reach (by omega), ?_⟩
        split
        · obtain ⟨leaf, hclosed⟩ := hfitted'.close (by omega) (by omega) (Nat.le_refl _)
          rw [List.forall_mem_append]
          exact ⟨hfitted'.closeOps_granted hQ.minus (by omega) (Nat.le_refl _),
            hchildren hnext hword hlast hrest hsuits' (by omega) hrepeat hclosed⟩
        · exact hchildren hnext hword hlast hrest hsuits' (by omega) hrepeat hfitted'
      · rename_i hother
        have hroom : 2 * (c :: rest).length ≤ fuel := by
          rw [List.length_cons]
          omega
        split
        · -- too deep for more branches, so nodes may be flattened
          rename_i hdeep
          have hflat : d.Flattens Q most (c :: rest) :=
            hsuits.level.resolve_left (by omega)
          rw [List.forall_mem_append]
          refine ⟨takeFlatOps_granted hQ hb hseg hsuits hflat, ?_⟩
          split
          · rename_i r htake
            obtain ⟨rest', mid, new, htaken⟩ := takeFlat_spec hb (by simp) (by omega) hseg htake
            exact hchildren.goOn htaken hword hlast hsuits hroom hrepeat hfitted
          · simp
        · have hfirst : ∀ x ∈ (c :: rest).head?, 0 ≤ p.inRepeat → 0 ≤ x.size →
              x.id ≠ p.inRepeat := by
            intro x hx hin hsize heq
            obtain rfl : c = x := by simpa using hx
            exact hother (by simp [hin, hsize, heq])
          rw [List.forall_mem_append]
          refine ⟨hnode hb (by simp) (by omega) (by omega) hseg hsuits hroom hrepeat hfirst, ?_⟩
          split
          · rename_i r htake
            obtain ⟨rest', mid, new, htaken⟩ := (take_spec d fuel).1 hb (by simp) (by omega) hseg
              hroom hrepeat hfirst htake
            exact hchildren.goOn htaken hword hlast hsuits hroom hrepeat hfitted
          · simp

/-- **Taking nodes takes operations in order.** -/
theorem take_granted (hQ : Operation.Granted Q d last most) (fuel : Nat) :
    GrantsNode Q d last most fuel ∧ GrantsChildren Q d last most fuel := by
  induction fuel with
  | zero =>
      constructor
      · intro _ _ _ _ _ seg _ _ _ hne _ _ _ _ hfuel
        exact absurd (List.eq_nil_of_length_eq_zero (by omega)) hne
      · intro _ _ _ _ _ _ _ _ _ _ _ _ _ _ hfuel
        omega
  | succ fuel ih => exact ⟨takeNodeOpsF_step hQ ih.2, takeChildrenOpsF_step hQ ih.1 ih.2⟩

/-- Taking all nodes down to the first slot takes operations in order. -/
theorem takeAllOpsF_granted (hQ : Operation.Granted Q d last most) {below : List Record}
    (hstart : d.bufferStart = 4 * below.length) (fuel : Nat) {levels hi : Nat} {seg : List Record}
    {cs : List (Nat × Tree)} {b : Builder} (hb : b.reader.Holds (seg ++ below))
    (hword : hi ≤ d.start + maxWord) (hlast : hi ≤ last) (hseg : d.Forest levels d.start hi seg)
    (hsuits : d.Suits Q most 0 levels seg) : ∀ op ∈ takeAllOpsF d fuel cs b, Q op := by
  induction fuel generalizing hi seg cs b with
  | zero => simp [takeAllOpsF]
  | succ fuel ih =>
      rw [takeAllOpsF, hstart]
      have hpos := hb.pos_eq
      rw [List.length_append] at hpos
      split
      · simp
      · have hne : seg ≠ [] := by
          rintro rfl
          simp only [List.length_nil] at hpos
          omega
        rw [List.forall_mem_append]
        refine ⟨(take_granted hQ _).1 hb hne hword hlast hseg hsuits (by omega) (Or.inl rfl)
          (by omega), ?_⟩
        split
        · rename_i r htake
          obtain ⟨rest, mid, new, htaken⟩ := (take_spec d _).1 hb hne hword hseg (by omega)
            (Or.inl rfl) (by omega) htake
          have hmid := htaken.forest.le
          have hle := hseg.le
          have hfits := htaken.fits.le
          exact ih htaken.reader (by omega) (by omega) htaken.forest
            (hsuits.sublist htaken.suffix.sublist)
        · simp

end Operations

end Builder

/-- **All operations of a build are in order** where the records form a forest. -/
theorem Tree.buildFromOps_granted {Q : Operation → Prop} {d : BuildPlan} {most levels hi : Nat}
    (hQ : Operation.Granted Q d hi most) {r : Reader} {seg below : List Record}
    (hstart : d.bufferStart = 4 * below.length) (hr : r.Holds (seg ++ below))
    (hword : hi ≤ d.start + maxWord) (hseg : d.Forest levels d.start hi seg)
    (hsuits : d.Suits Q most 0 levels seg) : ∀ op ∈ Tree.buildFromOps d r, Q op := by
  unfold Tree.buildFromOps
  split
  · simp
  · exact Builder.takeAllOpsF_granted hQ hstart _ (b := { reader := r }) hr hword (Nat.le_refl _)
      hseg hsuits

end IncrementalLR
