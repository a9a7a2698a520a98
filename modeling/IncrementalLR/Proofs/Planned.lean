/-
**Forests of records for a plan.**

A builder may find more among the records than nodes and marks of a parse: a change of context is
noted and passed over, and a record of reuse stands for a tree of an older parse.
`BuildPlan.Forest` says that records form a forest for a plan: nodes are around what is below them,
neighbours follow each other, and older trees are formed and lie where there is room for them.  It
also counts levels, since what is nested too deep is flattened.

A run of small nodes is packed into one buffer.  How many nodes a run may have is not bounded by its
text, for there may be nodes without text; `BuildPlan.Sparse` bounds it.

Main definitions:

* `Record.IsNote` — records that only mark a change;
* `BuildPlan.Forest` — records that form a forest;
* `BuildPlan.Sparse` — records that have few nodes in any stretch of text.

Main results:

* `BuildPlan.Forest.append`, `BuildPlan.Forest.tail` — forests next to each other, and without their
  last root;
* `BuildPlan.Forest.head_cases` — what the newest record of a forest is;
* `Nested.forest` — what a parse writes is a forest.
-/

import IncrementalLR.Proofs.Formed
import IncrementalLR.Proofs.Nesting
import IncrementalLR.Tree.Build

set_option relaxedAutoImplicit false
set_option autoImplicit false

namespace IncrementalLR

/-- The indices of a buffer and the positions in it fit into 16 bits. -/
structure Buffer.Narrow (b : Buffer) : Prop where
  size_le : b.size ≤ 65535
  length_le : b.length ≤ 65535

/-- A buffer that is well formed if everything fits into 16 bits. -/
def Buffer.Sound (b : Buffer) : Prop := b.Narrow → b.WellFormed

/-! ### Records that are no nodes -/

/-- Whether a record only marks a change of context or look-ahead. -/
def Record.IsNote (r : Record) : Prop :=
  r.size = Record.contextSize ∨ r.size = Record.lookAheadSize

theorem Record.IsNote.size_lt {r : Record} (h : r.IsNote) : r.size < 0 := by
  unfold IsNote contextSize lookAheadSize at h
  omega

theorem Record.IsNote.ne_reuse {r : Record} (h : r.IsNote) : r.size ≠ Record.reuseSize := by
  unfold IsNote contextSize lookAheadSize at h
  unfold reuseSize
  omega

/-- Whether a record is a node without children. -/
def Record.isLeaf (r : Record) : Bool := r.isNode && decide (r.size ≤ 4)

theorem Record.isNode_of_isLeaf {r : Record} (h : r.isLeaf = true) : r.isNode = true :=
  (Bool.and_eq_true_iff.1 h).1

namespace BuildPlan

/-- Whether a record is left out of buffers. -/
def drops (d : BuildPlan) (r : Record) : Bool :=
  decide (r.size < 0) || decide (d.repeatFrom ≤ r.id)

theorem drops_of_neg {d : BuildPlan} {r : Record} (h : r.size < 0) : d.drops r = true := by
  simp [drops, h]

/-- The tree that a record of reuse stands for. -/
def reusedTree (d : BuildPlan) (r : Record) : Option Tree :=
  if 0 ≤ r.id then d.reused[r.id.toNat]? else none

/-! ### Forests -/

/-- Records, newest first, that form a forest between two positions, nested at most `levels`
deep. -/
inductive Forest (d : BuildPlan) : Nat → Int → Int → List Record → Prop
  | nil {levels : Nat} {lo hi : Int} : lo ≤ hi → Forest d levels lo hi []
  | note {levels : Nat} {lo hi : Int} {r : Record} {rest : List Record} : r.IsNote →
      Forest d levels lo hi rest → Forest d levels lo hi (r :: rest)
  | reuse {levels : Nat} {lo hi : Int} {r : Record} {rest : List Record} :
      r.size = Record.reuseSize → r.start ≤ hi →
      (∀ t ∈ d.reusedTree r, t.Formed Buffer.Sound ∧ r.start + t.length ≤ hi) →
      Forest d levels lo r.start rest → Forest d levels lo hi (r :: rest)
  | node {levels : Nat} {lo hi : Int} {r : Record} {inner outer : List Record} : 0 ≤ r.id →
      r.size = 4 * (inner.length + 1) → r.stop ≤ hi → Forest d levels r.start r.stop inner →
      Forest d (levels + 1) lo r.start outer → Forest d (levels + 1) lo hi (r :: (inner ++ outer))

namespace Forest

variable {d : BuildPlan} {levels : Nat} {lo mid hi : Int} {r : Record} {rs rest : List Record}

theorem le (h : d.Forest levels lo hi rs) : lo ≤ hi := by
  induction h with
  | nil hle => exact hle
  | note _ _ ih => exact ih
  | reuse _ hstart _ _ ih => exact Int.le_trans ih hstart
  | node _ _ hstop _ _ ihInner ih => omega

theorem mono {hi' : Int} (h : d.Forest levels lo hi rs) (hhi : hi ≤ hi') :
    d.Forest levels lo hi' rs := by
  induction h with
  | nil hle => exact .nil (Int.le_trans hle hhi)
  | note hr _ ih => exact .note hr (ih hhi)
  | reuse hsize hstart htree hrest _ =>
      refine .reuse hsize (Int.le_trans hstart hhi) (fun t ht => ?_) hrest
      exact ⟨(htree t ht).1, Int.le_trans (htree t ht).2 hhi⟩
  | node hid hsize hstop hinner houter _ _ =>
      exact .node hid hsize (Int.le_trans hstop hhi) hinner houter

/-- A forest may have fewer levels than it is said to have. -/
theorem deepen {levels' : Nat} (h : d.Forest levels lo hi rs) (hle : levels ≤ levels') :
    d.Forest levels' lo hi rs := by
  induction h generalizing levels' with
  | nil h => exact .nil h
  | note hr _ ih => exact .note hr (ih hle)
  | reuse hsize hstart htree _ ih => exact .reuse hsize hstart htree (ih hle)
  | node hid hsize hstop _ _ ihInner ih =>
      obtain ⟨levels', rfl⟩ := Nat.exists_eq_add_of_le' (Nat.le_trans (Nat.succ_pos _) hle)
      exact .node hid hsize hstop (ihInner (by omega)) (ih hle)

/-- A forest in front of another one. -/
theorem append {a b : List Record} (ha : d.Forest levels mid hi a)
    (hb : d.Forest levels lo mid b) : d.Forest levels lo hi (a ++ b) := by
  induction ha with
  | nil hle => exact hb.mono hle
  | note hr _ ih => exact .note hr (ih hb)
  | reuse hsize hstart htree _ ih => exact .reuse hsize hstart htree (ih hb)
  | node hid hsize hstop hinner _ _ ih =>
      rw [List.cons_append, List.append_assoc]
      exact .node hid hsize hstop hinner (ih hb)

/-- What the newest record of a forest is: a mark, an older tree, or the root of a tree. -/
theorem head_cases (h : d.Forest levels lo hi (r :: rest)) :
    (r.IsNote ∧ d.Forest levels lo hi rest) ∨
      (r.size = Record.reuseSize ∧ r.start ≤ hi ∧
        (∀ t ∈ d.reusedTree r, t.Formed Buffer.Sound ∧ r.start + t.length ≤ hi) ∧
        d.Forest levels lo r.start rest) ∨
      ∃ m inner outer, levels = m + 1 ∧ rest = inner ++ outer ∧ 0 ≤ r.id ∧
        r.size = 4 * (inner.length + 1) ∧ r.stop ≤ hi ∧ d.Forest m r.start r.stop inner ∧
        d.Forest levels lo r.start outer := by
  cases h with
  | note hr hrest => exact Or.inl ⟨hr, hrest⟩
  | reuse hsize hstart htree hrest => exact Or.inr (Or.inl ⟨hsize, hstart, htree, hrest⟩)
  | node hid hsize hstop hinner houter =>
      exact Or.inr (Or.inr ⟨_, _, _, rfl, rfl, hid, hsize, hstop, hinner, houter⟩)

/-- The newest record is the root of a tree if its size is not negative; below it there is one level
less. -/
theorem head_level (h : d.Forest levels lo hi (r :: rest)) (hsize : 0 ≤ r.size) :
    ∃ m inner outer, levels = m + 1 ∧ rest = inner ++ outer ∧ 0 ≤ r.id ∧
      r.size = 4 * (inner.length + 1) ∧ r.stop ≤ hi ∧ d.Forest m r.start r.stop inner ∧
      d.Forest levels lo r.start outer := by
  rcases h.head_cases with ⟨hnote, -⟩ | ⟨hreuse, -⟩ | hnode
  · exact absurd hnote.size_lt (by omega)
  · unfold Record.reuseSize at hreuse
    omega
  · exact hnode

/-- The same, with the levels that the forest itself has. -/
theorem head_node (h : d.Forest levels lo hi (r :: rest)) (hsize : 0 ≤ r.size) :
    ∃ inner outer, rest = inner ++ outer ∧ 0 ≤ r.id ∧ r.size = 4 * (inner.length + 1) ∧
      r.stop ≤ hi ∧ d.Forest levels r.start r.stop inner ∧ d.Forest levels lo r.start outer := by
  obtain ⟨m, inner, outer, rfl, rfl, hid, hsize', hstop, hinner, houter⟩ := h.head_level hsize
  exact ⟨inner, outer, rfl, hid, hsize', hstop, hinner.deepen (Nat.le_succ m), houter⟩

/-- A root with what is below it. -/
theorem head_tree {inner outer : List Record} (h : d.Forest levels lo hi (r :: (inner ++ outer)))
    (hsize : r.size = 4 * (inner.length + 1)) : d.Forest levels r.start r.stop (r :: inner) := by
  obtain ⟨m, inner', outer', rfl, heq, hid, hsize', -, hinner, -⟩ := h.head_level (by omega)
  obtain ⟨rfl, -⟩ := List.append_inj heq (by omega)
  have key : d.Forest (m + 1) r.start r.stop (r :: (inner ++ [])) :=
    .node hid hsize (Int.le_refl _) hinner (.nil (Int.le_refl _))
  rwa [List.append_nil] at key

/-- Without its last root, a forest is still one: the children of the root take its place. -/
theorem tail (h : d.Forest levels lo hi (r :: rest)) : d.Forest levels lo hi rest := by
  rcases h.head_cases with ⟨-, hrest⟩ | ⟨-, hstart, -, hrest⟩ |
    ⟨m, inner, outer, rfl, rfl, -, -, hstop, hinner, houter⟩
  · exact hrest
  · exact hrest.mono hstart
  · exact ((hinner.deepen (Nat.le_succ m)).append houter).mono hstop

theorem id_nonneg (h : d.Forest levels lo hi rs) : ∀ x ∈ rs, x.isNode → 0 ≤ x.id := by
  induction h with
  | nil _ => simp
  | note hr _ ih =>
      refine List.forall_mem_cons.2 ⟨fun hnode => ?_, ih⟩
      exact absurd (of_decide_eq_true hnode) (by have := hr.size_lt; omega)
  | reuse hsize _ _ _ ih =>
      refine List.forall_mem_cons.2 ⟨fun hnode => ?_, ih⟩
      exact absurd (of_decide_eq_true hnode) (by rw [hsize]; decide)
  | node hid _ _ _ _ ihInner ih =>
      exact List.forall_mem_cons.2 ⟨fun _ => hid, List.forall_mem_append.2 ⟨ihInner, ih⟩⟩

/-- Where no older tree stands among the records, those that are left out of a buffer are looked
through. -/
theorem nested (h : d.Forest levels lo hi rs) (hfresh : ∀ r ∈ rs, r.size ≠ Record.reuseSize) :
    Nested (fun r => d.drops r = true) lo hi rs := by
  induction h with
  | nil hle => exact .nil hle
  | note hr _ ih =>
      rw [List.forall_mem_cons] at hfresh
      exact .skip (drops_of_neg hr.size_lt) (ih hfresh.2)
  | reuse hsize => exact absurd hsize (hfresh _ List.mem_cons_self)
  | node hid hsize hstop _ _ ihInner ih =>
      rw [List.forall_mem_cons, List.forall_mem_append] at hfresh
      exact .node hid hsize hstop (ihInner hfresh.2.1) (ih hfresh.2.2)

end Forest

/-! ### Stretches of text -/

/-- Whether a record is a node in the stretch of text that starts at `x` and is as long as a buffer
may be. -/
def isWithin (d : BuildPlan) (x : Int) (r : Record) : Bool :=
  r.isNode && decide (x ≤ r.start) && decide (r.stop ≤ x + d.maxBuffer)

/-- No stretch of text that fits into a buffer has more than `most` nodes. -/
def Sparse (d : BuildPlan) (most : Nat) (rs : List Record) : Prop :=
  ∀ x : Int, rs.countP (d.isWithin x) ≤ most

theorem Sparse.sublist {d : BuildPlan} {most : Nat} {rs rest : List Record} (h : d.Sparse most rs)
    (hsub : rest.Sublist rs) : d.Sparse most rest :=
  fun x => Nat.le_trans (hsub.countP_le) (h x)

/-- Few records are sparse. -/
theorem sparse_of_length {d : BuildPlan} {most : Nat} {rs : List Record} (h : rs.length ≤ most) :
    d.Sparse most rs :=
  fun _ => Nat.le_trans List.countP_le_length h

end BuildPlan

/-- What a parse writes is a forest for every plan. -/
theorem Nested.forest {lo hi : Int} {rs : List Record} (d : BuildPlan)
    (h : Nested Record.IsMark lo hi rs) : d.Forest rs.length lo hi rs := by
  induction h with
  | nil hle => exact .nil hle
  | skip hr _ ih => exact .note (Or.inr hr) (ih.deepen (Nat.le_succ _))
  | @node lo hi r inner outer hid hsize hstop _ _ ihInner ih =>
      simp only [List.length_cons, List.length_append]
      exact .node hid hsize hstop (ihInner.deepen (by omega)) (ih.deepen (by omega))

end IncrementalLR
