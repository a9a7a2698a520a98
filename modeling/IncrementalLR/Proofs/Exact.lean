/-
**Slots hold what was computed.**

A buffer of 16-bit slots is filled with numbers of any size: ids, offsets into the text of the
buffer and indices into the buffer itself.  The operations of a build list these numbers before they
are cut, in the order of the slots.  Every buffer of a tree that is built, unless it was taken over
with an older tree, holds a piece of that list, cut to 16 bits.  Nothing is lost by the cut if
buffers are not longer than 65535 bytes, ids fit, and no buffer gets too many nodes.

Main definitions:

* `Buffer.WrittenBy` — a buffer that holds numbers written by some operations;
* `BuildPlan.Stores` — a buffer that was written, or taken over with an older tree.

Main results:

* `Tree.buffers_balanceWith` — balancing keeps the buffers, in their order;
* `Builder.take_stores` — the buffers of nodes that are taken;
* `Tree.build_stores` — the buffers of a tree that is built;
* `Tree.build_exact` — **no number is changed when it is written**;
* `Tree.build_cuts` — a longer buffer, and a number that is changed.
-/

import IncrementalLR.Proofs.Overflows
import IncrementalLR.Proofs.Trails

set_option relaxedAutoImplicit false
set_option autoImplicit false

namespace IncrementalLR

/-! ### Buffers of children -/

namespace Tree

theorem buffersAll_append (cs cs' : List (Nat × Tree)) :
    buffersAll (cs ++ cs') = buffersAll cs ++ buffersAll cs' := by
  induction cs with
  | nil => simp [buffersAll]
  | cons c rest ih => simp only [List.cons_append, buffersAll, ih, List.append_assoc]

/-- Buffers do not depend on where children stand. -/
theorem buffersAll_map (f : Nat → Nat) (cs : List (Nat × Tree)) :
    buffersAll (cs.map fun c => (f c.1, c.2)) = buffersAll cs := by
  induction cs with
  | nil => rfl
  | cons c rest ih => simp only [List.map_cons, buffersAll, ih]

theorem buffers_of_isBranch {t : Tree} (h : t.isBranch = true) :
    t.buffers = buffersAll t.children := by
  cases t with
  | branch stamp ty cs len ps => rfl
  | packed b => cases h

/-- A constructor of nodes that have the buffers of their children. -/
def KeepsBuffers (make : List (Nat × Tree) → Nat → Tree) : Prop :=
  ∀ cs length, (make cs length).buffers = buffersAll cs

/-- Grouping and dividing keep the buffers. -/
theorem buffers_group_divide {ty : NodeType} {inner : List (Nat × Tree) → Nat → Tree}
    (hinner : KeepsBuffers inner) (fuel : Nat) :
    (∀ top cs start length, KeepsBuffers top →
      (groupF ty inner fuel top cs start length).buffers = buffersAll cs) ∧
    ∀ limit cs offset start,
      buffersAll (divideF ty inner fuel limit cs offset start) = buffersAll cs := by
  induction fuel with
  | zero =>
      refine ⟨fun top cs start length htop => ?_, fun limit cs offset start => ?_⟩
      · rw [groupF]
        exact htop cs length
      · rw [divideF]
  | succ fuel ih =>
      refine ⟨fun top cs start length htop => ?_, fun limit cs offset start => ?_⟩
      · rw [groupF, htop, ih.2]
      · cases cs with
        | nil =>
            rw [divideF]
            simp
        | cons c rest =>
            have hsplit := growGroup_append ty limit (c.2.groupSize ty) rest
            rw [divideF]
            generalize growGroup ty limit (c.2.groupSize ty) rest = grown at hsplit ⊢
            obtain ⟨taken, size, after⟩ := grown
            simp only at hsplit ⊢
            subst hsplit
            cases hlast : taken.getLast? with
            | none =>
                obtain rfl : taken = [] := List.getLast?_eq_none_iff.1 hlast
                simp only [List.nil_append]
                split
                · -- the child gives way to its children
                  rename_i hopen
                  rw [Bool.and_eq_true] at hopen
                  rw [buffersAll_append, ih.2, ih.2, ← buffers_of_isBranch hopen.2, buffersAll]
                · rw [buffersAll, buffersAll, ih.2]
            | some last =>
                simp only
                rw [buffersAll, ih.1 _ _ _ _ hinner, ih.2, ← buffersAll_append, List.cons_append]

/-- **Balancing keeps the buffers**, in their order. -/
theorem buffers_balanceWith {ty : NodeType} {top inner : List (Nat × Tree) → Nat → Tree}
    (htop : KeepsBuffers top) (hinner : KeepsBuffers inner) (cs : List (Nat × Tree))
    (length : Nat) : (balanceWith ty top inner cs length).buffers = buffersAll cs :=
  (buffers_group_divide hinner _).1 top cs 0 length htop

end Tree

theorem keepsBuffers_makeBranch (ty : NodeType) (lookAhead contextHash : Nat) :
    Tree.KeepsBuffers fun cs length => makeBranch ty cs length lookAhead contextHash :=
  fun _ _ => rfl

theorem keepsBuffers_makeRepeat (ty : NodeType) (contextHash : Nat) :
    Tree.KeepsBuffers (makeRepeat ty contextHash) := by
  intro cs length
  rcases makeRepeat_cases ty contextHash cs length with ⟨lookAhead, heq⟩ | ⟨pos, t, rfl, -, heq⟩
  · rw [heq]
    exact keepsBuffers_makeBranch ty lookAhead contextHash cs length
  · rw [heq]
    simp [Tree.buffersAll]

namespace Builder

/-- Finishing a leaf keeps the buffers. -/
theorem Family.buffers_close (f : Family) (p : Parent) (start : Nat) :
    Tree.buffersAll (f.close p start).children = Tree.buffersAll f.children := by
  simp only [Family.close, repeatLeaf, Tree.buffersAll, keepsBuffers_makeBranch _ _ _ _ _,
    Tree.buffersAll_map fun n => Tree.word (n + p.start - start)]
  rw [← Tree.buffersAll_append, List.take_append_drop]

/-- The node of a family has the buffers of the family. -/
theorem Family.buffers_node (f : Family) (p : Parent) :
    (f.node p).buffers = Tree.buffersAll f.children := by
  unfold Family.node
  split
  · rw [Tree.buffers_balanceWith (keepsBuffers_makeRepeat _ _) (keepsBuffers_makeRepeat _ _)]
    split
    · exact f.buffers_close p p.start
    · rfl
  · exact keepsBuffers_makeBranch _ _ _ _ _

end Builder

/-! ### Numbers that are written -/

namespace Operation

/-- The numbers that operations write into slots. -/
def written (ops : List Operation) : List Int := ops.filterMap written?

@[simp] theorem written_nil : written [] = [] := rfl

@[simp] theorem written_minus (a b : Nat) (ops : List Operation) :
    written (.minus a b :: ops) = written ops := rfl

@[simp] theorem written_plus (top a b : Nat) (ops : List Operation) :
    written (.plus top a b :: ops) = written ops := rfl

@[simp] theorem written_write (n : Int) (ops : List Operation) :
    written (.write n :: ops) = n :: written ops := rfl

@[simp] theorem written_append (ops ops' : List Operation) :
    written (ops ++ ops') = written ops ++ written ops' := List.filterMap_append

/-- The numbers that are written are those of the operations. -/
theorem mem_written {ops : List Operation} {n : Int} : n ∈ written ops ↔ .write n ∈ ops := by
  unfold written
  rw [List.mem_filterMap]
  constructor
  · rintro ⟨op, hop, hn⟩
    cases op with
    | write m =>
        obtain rfl : m = n := Option.some.inj hn
        exact hop
    | minus a b => cases hn
    | plus top a b => cases hn
  · exact fun h => ⟨_, h, rfl⟩

end Operation

/-- A buffer whose slots are filled, from some slot on, with numbers that operations write one after
the other. -/
def Buffer.WrittenBy (b : Buffer) (ops : List Operation) : Prop :=
  ∃ free ns, ns <:+: Operation.written ops ∧
    b.slots.toList = List.replicate free 0 ++ ns.map Builder.half

/-- A buffer that was taken over with an older tree, or written. -/
def BuildPlan.Stores (d : BuildPlan) (ops : List Operation) (b : Buffer) : Prop :=
  (∃ t ∈ d.reused.toList, b ∈ t.buffers) ∨ b.WrittenBy ops

theorem BuildPlan.Stores.mono {d : BuildPlan} {ops ops' : List Operation} {b : Buffer}
    (h : d.Stores ops b) (hpart : ops <:+: ops') : d.Stores ops' b :=
  h.imp_right fun ⟨free, ns, hns, hslots⟩ =>
    ⟨free, ns, hns.trans (hpart.filterMap Operation.written?), hslots⟩

namespace Builder

variable {d : BuildPlan}

/-- Copying puts the numbers that it writes in front of the slots. -/
theorem copy_written (base fuel : Nat) :
    (∀ b index out, (copyNodeF d base fuel b index out).2.2 =
      (Operation.written (copyNodeOpsF d base fuel b index out)).map half ++ out) ∧
    ∀ stop b index out, (copyRunF d base fuel stop b index out).2.2 =
      (Operation.written (copyRunOpsF d base fuel stop b index out)).map half ++ out := by
  induction fuel with
  | zero => exact ⟨fun _ _ _ => rfl, fun _ _ _ _ => rfl⟩
  | succ fuel ih =>
      refine ⟨fun b index out => ?_, fun stop b index out => ?_⟩
      · rw [copyNodeF, copyNodeOpsF]
        simp only
        split
        · split <;> simp [ih.2]
        · rfl
      · rw [copyRunF, copyRunOpsF]
        split
        · rfl
        · simp only
          rw [ih.2, ih.1, Operation.written_append, List.map_append, List.append_assoc]

/-- The buffer of a run is written by packing. -/
theorem pack_stores (b : Builder) (run : Run) (stop : Nat) :
    ∀ x ∈ (pack d b run stop).2.buffers, x.WrittenBy (packOps d b run stop) := by
  intro x hx
  simp only [pack, Tree.buffers, List.mem_singleton] at hx
  subst hx
  refine ⟨(copyRunF d run.start (2 * b.reader.pos + 2) (b.reader.pos - run.size) b
    (run.size - run.skip) []).2.1, Operation.written (packOps d b run stop), List.infix_rfl, ?_⟩
  simp [packOps, Buffer.make, (copy_written _ _).2]

/-- The slots of nodes without children are the numbers that are written for them. -/
theorem flatSlots_written (base index : Nat) (nodes : List Record) :
    flatSlots base index nodes = (Operation.written (flatSlotsOps base index nodes)).map half := by
  induction nodes generalizing index with
  | nil => rfl
  | cons c rest ih => simp [flatSlots, flatSlotsOps, ih]

/-! ### Buffers of nodes that are taken -/

/-- Children whose buffers are those of the children before, or stored. -/
def GrowsBy (d : BuildPlan) (ops : List Operation) (cs cs' : List (Nat × Tree)) : Prop :=
  ∀ x ∈ Tree.buffersAll cs', x ∈ Tree.buffersAll cs ∨ d.Stores ops x

theorem GrowsBy.cons {ops : List Operation} {cs : List (Nat × Tree)} {n : Nat} {t : Tree}
    (h : ∀ x ∈ t.buffers, d.Stores ops x) : GrowsBy d ops cs ((n, t) :: cs) := by
  intro x hx
  rw [Tree.buffersAll, List.mem_append] at hx
  exact hx.symm.imp_right (h x)

theorem GrowsBy.mono {ops ops' : List Operation} {cs cs' : List (Nat × Tree)}
    (h : GrowsBy d ops cs cs') (hpart : ops <:+: ops') : GrowsBy d ops' cs cs' :=
  fun x hx => (h x hx).imp_right fun hstores => hstores.mono hpart

theorem GrowsBy.trans {ops : List Operation} {cs cs' cs'' : List (Nat × Tree)}
    (h : GrowsBy d ops cs cs') (h' : GrowsBy d ops cs' cs'') : GrowsBy d ops cs cs'' :=
  fun x hx => (h' x hx).elim (h x) Or.inr

theorem takeMarker_stores {parentStart : Nat} {cs : List (Nat × Tree)} {b : Builder}
    {r : List (Nat × Tree) × Builder} (h : takeMarker d parentStart cs b = .ok r)
    (ops : List Operation) : GrowsBy d ops cs r.1 := by
  unfold takeMarker at h
  simp only at h
  split at h
  · split at h
    · rename_i t ht
      obtain rfl := Except.ok.inj h
      refine GrowsBy.cons fun x hx => Or.inl ⟨t, ?_, hx⟩
      split at ht
      · exact (Array.mem_of_getElem? ht).val
      · cases ht
    · cases h
  · split at h
    · obtain rfl := Except.ok.inj h
      exact fun x hx => Or.inl hx
    · cases h

theorem takeFlat_stores {parentStart minPos : Nat} {cs : List (Nat × Tree)} {b : Builder}
    {r : List (Nat × Tree) × Builder} (h : takeFlat d parentStart minPos cs b = .ok r) :
    GrowsBy d (takeFlatOps d minPos b) cs r.1 := by
  unfold takeFlat at h
  unfold takeFlatOps
  simp only at h ⊢
  generalize collectF d minPos b.reader.pos b none [] = found at h ⊢
  obtain ⟨b', nodes⟩ := found
  cases nodes with
  | nil =>
      simp only at h
      split at h
      · exact takeMarker_stores h _
      · obtain rfl := Except.ok.inj h
        exact fun x hx => Or.inl hx
  | cons first nodes =>
      obtain ⟨last, hlast⟩ : ∃ last, (first :: nodes).getLast? = some last :=
        ⟨_, List.getLast?_eq_some_getLast (by simp)⟩
      simp only [hlast] at h ⊢
      obtain rfl := Except.ok.inj h
      refine GrowsBy.cons fun x hx => Or.inr ⟨0, _, List.infix_rfl, ?_⟩
      rw [Tree.buffers, List.mem_singleton] at hx
      subst hx
      exact flatSlots_written _ _ _

/-- Taking a node with some fuel adds buffers that are written by its operations. -/
def StoresNode (d : BuildPlan) (fuel : Nat) : Prop :=
  ∀ {parentStart minPos depth : Nat} {inRepeat : Int} {cs : List (Nat × Tree)} {b : Builder}
    {r : List (Nat × Tree) × Builder},
    takeNodeF d fuel parentStart minPos inRepeat depth cs b = .ok r →
      GrowsBy d (takeNodeOpsF d fuel minPos inRepeat depth b) cs r.1

/-- Taking the children of a node does so, too. -/
def StoresChildren (d : BuildPlan) (fuel : Nat) : Prop :=
  ∀ {p : Parent} {minPos : Nat} {f : Family} {b : Builder} {r : Family × Builder},
    takeChildrenF d fuel p minPos f b = .ok r →
      GrowsBy d (takeChildrenOpsF d fuel p minPos f b) f.children r.1.children

theorem takeNodeF_stores {fuel : Nat} (hchildren : StoresChildren d fuel) :
    StoresNode d (fuel + 1) := by
  intro parentStart minPos depth inRepeat cs b r h
  rw [takeNodeF] at h
  simp only at h
  split at h
  · exact takeMarker_stores h _
  · split at h
    · cases h
    · rename_i hbad
      simp only [Bool.or_eq_true, decide_eq_true_eq, or_assoc, not_or] at hbad
      obtain ⟨ty, hty, h⟩ := bind_ok h
      rw [takeNodeOpsF]
      simp only [hty]
      rw [if_neg hbad.1, if_neg (by simpa using hbad.2)]
      generalize (if b.reader.record.stopPos - b.reader.record.startPos ≤ d.maxBuffer then
        findRun d b.reader minPos inRepeat else none) = found at h ⊢
      cases found with
      | some run =>
          obtain rfl := Except.ok.inj h
          refine GrowsBy.cons fun x hx => BuildPlan.Stores.mono ?_ (List.suffix_append _ _).isInfix
          exact Or.inr (pack_stores _ _ _ x hx)
      | none =>
          obtain ⟨r', htake, h⟩ := bind_ok h
          obtain rfl := Except.ok.inj h
          refine GrowsBy.cons fun x hx => ?_
          rw [Family.buffers_node] at hx
          have hnew := (hchildren htake x hx).resolve_left (by simp [Tree.buffersAll])
          exact hnew.mono ⟨[_, _, _], _, rfl⟩

theorem takeChildrenF_stores {fuel : Nat} (hnode : StoresNode d fuel)
    (hchildren : StoresChildren d fuel) : StoresChildren d (fuel + 1) := by
  intro p minPos f b r h
  rw [takeChildrenF] at h
  rw [takeChildrenOpsF]
  simp only at h ⊢
  split at h
  · obtain rfl := Except.ok.inj h
    exact fun x hx => Or.inl hx
  · rename_i hleft
    rw [if_neg hleft]
    split at h
    · -- a node of the repetition itself may finish a leaf, which has the buffers of its children
      rename_i hsame
      rw [if_pos hsame]
      split at h
      · rename_i hlong
        rw [if_pos hlong]
        intro x hx
        have hnew := hchildren h x hx
        rw [Family.buffers_close] at hnew
        refine hnew.imp_right fun hstores => hstores.mono ?_
        exact ((List.suffix_append _ _).trans (List.suffix_cons _ _)).isInfix
      · rename_i hshort
        rw [if_neg hshort]
        exact (hchildren h).mono (List.suffix_cons _ _).isInfix
    · rename_i hother
      rw [if_neg hother]
      split at h
      · rename_i hdeep
        obtain ⟨taken, htake, h⟩ := bind_ok h
        simp only [hdeep, if_true, htake]
        exact ((takeFlat_stores htake).mono (List.prefix_append _ _).isInfix).trans
          ((hchildren h).mono (List.suffix_append _ _).isInfix)
      · rename_i hdeep
        obtain ⟨taken, htake, h⟩ := bind_ok h
        simp only [hdeep, if_false, htake]
        exact ((hnode htake).mono (List.prefix_append _ _).isInfix).trans
          ((hchildren h).mono (List.suffix_append _ _).isInfix)

/-- **The buffers of nodes that are taken** are written by the operations of taking them. -/
theorem take_stores (d : BuildPlan) (fuel : Nat) : StoresNode d fuel ∧ StoresChildren d fuel := by
  induction fuel with
  | zero =>
      constructor
      · intro _ _ _ _ cs b r h
        obtain rfl := Except.ok.inj h
        exact fun x hx => Or.inl hx
      · intro p _ f b r h
        obtain rfl := Except.ok.inj h
        exact fun x hx => Or.inl hx
  | succ fuel ih => exact ⟨takeNodeF_stores ih.2, takeChildrenF_stores ih.1 ih.2⟩

theorem takeAllF_stores (fuel : Nat) {cs cs' : List (Nat × Tree)} {b : Builder}
    (h : takeAllF d fuel cs b = .ok cs') : GrowsBy d (takeAllOpsF d fuel cs b) cs cs' := by
  induction fuel generalizing cs b with
  | zero =>
      obtain rfl := Except.ok.inj h
      exact fun x hx => Or.inl hx
  | succ fuel ih =>
      rw [takeAllF] at h
      rw [takeAllOpsF]
      split at h
      · obtain rfl := Except.ok.inj h
        exact fun x hx => Or.inl hx
      · rename_i hleft
        obtain ⟨r, htake, h⟩ := bind_ok h
        rw [if_neg hleft, htake]
        exact (((take_stores d _).1 htake).mono (List.prefix_append _ _).isInfix).trans
          ((ih h).mono (List.suffix_append _ _).isInfix)

end Builder

/-! ### Trees -/

/-- **The buffers of a tree that is built** are written by the operations of the build, or taken
over. -/
theorem Tree.build_stores {d : BuildPlan} {slots : List Int} {t : Tree}
    (h : Tree.build d slots = .ok t) : ∀ x ∈ t.buffers, d.Stores (Tree.buildOps d slots) x := by
  obtain ⟨_, hok, h⟩ := bind_ok h
  obtain ⟨ty, cs, htop, htake, rfl⟩ := Tree.exists_of_buildFrom h
  intro x hx
  unfold Tree.buildOps Tree.buildFromOps
  rw [hok, htop]
  exact (Builder.takeAllF_stores _ htake x hx).resolve_left (by simp [Tree.buffersAll])

/-- Records whose numbers fit into slots: buffers are not too long, ids fit, there are not too many
nodes in the text of a buffer, and nodes are not nested so deep that one without children gets a
buffer of its own, or such nodes are not too long. -/
structure BuildPlan.Narrow (d : BuildPlan) (levels : Nat) (seg : List Record) : Prop where
  maxBuffer_le : d.maxBuffer ≤ 65535
  id_le : ∀ r ∈ seg, r.isNode → r.id ≤ 65535
  sparse : d.Sparse 16383 seg
  leaves : levels ≤ cutoffDepth + 1 ∨ ∀ r ∈ seg, r.isLeaf → r.stop - r.start ≤ 65535

/-- A number that is written into a slot is not changed. -/
def Operation.IsExact (op : Operation) : Prop := ∀ n, op = .write n → (Builder.half n : Int) = n

theorem Operation.isExact_write {n : Nat} (h : n ≤ 65535) : (Operation.write n).IsExact := by
  rintro _ ⟨⟩
  rw [Builder.half_of_le h]

/-- Operations in order write no number that is too large. -/
theorem Operation.granted_isExact {d : BuildPlan} (last : Nat) (h : d.maxBuffer ≤ 65535) :
    Operation.Granted Operation.IsExact d last 16383 where
  minus _ := by rintro n ⟨⟩
  reach _ := by rintro n ⟨⟩
  offset hn := Operation.isExact_write (by omega)
  index hn := Operation.isExact_write (by omega)

theorem BuildPlan.Narrow.suits {d : BuildPlan} {levels : Nat} {lo hi : Int} {seg : List Record}
    (h : d.Narrow levels seg) (hforest : d.Forest levels lo hi seg) :
    d.Suits Operation.IsExact 16383 0 levels seg := by
  refine ⟨h.sparse, fun r hr hnode => ?_, h.leaves.imp (fun hle => by omega) fun hshort => ?_⟩
  · have hid := hforest.id_nonneg r hr hnode
    have hle := h.id_le r hr hnode
    rw [show r.id = (r.id.toNat : Int) by omega]
    exact Operation.isExact_write (by omega)
  · refine ⟨by decide, fun _ => by rintro n ⟨⟩, fun r hr hleaf n hn => ?_⟩
    have hle := hshort r hr hleaf
    exact Operation.isExact_write (by omega)

/-- **No number is changed when it is written into a slot**: every buffer of a tree that is built
from a forest, unless it is taken over with an older tree, holds numbers as they were computed, one
after the other, and zeros in front of them. -/
theorem Tree.build_exact {d : BuildPlan} {levels hi : Nat} {slots : List Int} {seg : List Record}
    (hcarries : d.Carries levels hi slots seg) (hnarrow : d.Narrow levels seg) :
    (∀ n, .write n ∈ Tree.buildOps d slots → (Builder.half n : Int) = n) ∧
      ∀ t, Tree.build d slots = .ok t → ∀ x ∈ t.buffers, (∃ u ∈ d.reused.toList, x ∈ u.buffers) ∨
        ∃ free ns, ns <:+: Operation.written (Tree.buildOps d slots) ∧
          x.slots.toList.map Int.ofNat = List.replicate free 0 ++ ns := by
  have hexact : ∀ n, .write n ∈ Tree.buildOps d slots → (Builder.half n : Int) = n := by
    intro n hn
    unfold Tree.buildOps at hn
    split at hn
    · rename_i hok
      obtain ⟨below, hholds, hstart⟩ := hcarries.holds hok
      exact Tree.buildFromOps_granted (Operation.granted_isExact hi hnarrow.maxBuffer_le) hstart
        hholds hcarries.hi_le hcarries.forest (hnarrow.suits hcarries.forest) _ hn n rfl
    · cases hn
  refine ⟨hexact, fun t ht x hx => (Tree.build_stores ht x hx).imp_right ?_⟩
  rintro ⟨free, ns, hns, hslots⟩
  refine ⟨free, ns, hns, ?_⟩
  have hsame : ∀ n ∈ ns, Int.ofNat (Builder.half n) = id n := fun n hn =>
    hexact n (Operation.mem_written.1 (hns.subset hn))
  rw [hslots, List.map_append, List.map_map, List.map_replicate]
  exact congrArg _ ((List.map_congr_left hsame).trans (List.map_id ns))

/-- The numbers in the buffers of the list of items are as they were computed. -/
theorem Tree.build_exact_list :
    (listPlan.Carries (Outline.depthAll listForest) 32 (Outline.slots listForest)
        (Outline.postorderAll listForest).reverse ∧
      listPlan.Narrow (Outline.depthAll listForest) (Outline.postorderAll listForest).reverse) ∧
    (∀ n, .write n ∈ Tree.buildOps listPlan (Outline.slots listForest) →
      (Builder.half n : Int) = n) ∧
    ∀ t, Tree.build listPlan (Outline.slots listForest) = .ok t → ∀ x ∈ t.buffers,
      (∃ u ∈ listPlan.reused.toList, x ∈ u.buffers) ∨
        ∃ free ns, ns <:+: Operation.written (Tree.buildOps listPlan (Outline.slots listForest)) ∧
          x.slots.toList.map Int.ofNat = List.replicate free 0 ++ ns := by
  have hcarries : listPlan.Carries (Outline.depthAll listForest) 32 (Outline.slots listForest)
      (Outline.postorderAll listForest).reverse := by
    refine Outline.carries_slots rfl ?_ (by decide)
    simp [listForest, Outline.InOrder, listPlan]
  have hnarrow : listPlan.Narrow (Outline.depthAll listForest)
      (Outline.postorderAll listForest).reverse := by
    refine ⟨by decide, by decide +kernel, BuildPlan.sparse_of_length (by decide +kernel), Or.inl ?_⟩
    simp [listForest, Outline.depthAll, cutoffDepth]
  exact ⟨⟨hcarries, hnarrow⟩, Tree.build_exact hcarries hnarrow⟩

/-- Two items, the second of which is longer than a buffer of 16 bits can tell. -/
def longSlots : List Int := [1, 0, 1, 4, 1, 1, 65538, 4]

/-- **A longer buffer, and a number that is changed**: the end of the second item is 65538, and the
buffer says 2. -/
theorem Tree.build_cuts :
    Operation.write 65538 ∈ Tree.buildOps { itemPlan with maxBuffer := 70000 } longSlots ∧
      (Builder.half 65538 : Int) ≠ 65538 ∧
      ∃ t, Tree.build { itemPlan with maxBuffer := 70000 } longSlots = .ok t ∧
        t.buffers.map Buffer.slots = [#[1, 0, 1, 4, 1, 1, 2, 8]] := by
  refine ⟨by decide +kernel, by decide, ?_⟩
  have heval : (Tree.build { itemPlan with maxBuffer := 70000 } longSlots).toOption.any
      (fun t => t.buffers.map Buffer.slots = [#[1, 0, 1, 4, 1, 1, 2, 8]]) = true := by
    decide +kernel
  obtain ⟨t, hbuild, heval⟩ := exists_ok_of_any heval
  exact ⟨t, hbuild, of_decide_eq_true heval⟩

end IncrementalLR
