/-
**Building without overflow.**

The check of a sequence of slots only compares spans, so it lets sequences pass that are no forest,
and on these the builder may fail: a difference falls below zero, and the program ends.  On a
forest of records it does not fail, as long as the positions fit into the numbers of the machine and
no buffer of flattened nodes gets too many.

Main definitions:

* `BuildPlan.Carries` — slots whose records form a forest;
* `BuildPlan.Manages` — slots that are rejected, or carry a forest that is not too long or dense.

Main results:

* `Tree.buildFromOps_no_halt` — no operation on a forest ends the program;
* `Tree.buildChecked_answers` — **building ends with a tree or an error**;
* `Tree.buildChecked_halts` — slots that pass the check and end the program.
-/

import IncrementalLR.Proofs.Forests
import IncrementalLR.Proofs.Operations
import IncrementalLR.Proofs.Rejections

set_option relaxedAutoImplicit false
set_option autoImplicit false

namespace IncrementalLR

/-! ### Slots that carry a forest -/

/-- Slots whose records, from the first slot of the tree on, are `seg`; they form a forest that ends
at `hi` at the latest, with positions that fit into 32 bits. -/
structure BuildPlan.Carries (d : BuildPlan) (levels hi : Nat) (slots : List Int)
    (seg : List Record) : Prop where
  records : ∃ below, Reader.quads slots.reverse = seg ++ below ∧ d.bufferStart = 4 * below.length
  forest : d.Forest levels d.start hi seg
  hi_le : hi ≤ d.start + maxWord

namespace Reader

theorem length_quads : ∀ l : List Int, (quads l).length = l.length / 4
  | [] | [_] | [_, _] | [_, _, _] => by simp [quads]
  | _ :: _ :: _ :: _ :: rest => by
      simp only [quads, List.length_cons, length_quads rest]
      omega

/-- A reader of whole records has them all to read. -/
theorem ofSlots_holds {slots : List Int} (h : slots.length % 4 = 0) :
    (ofSlots slots).Holds (quads slots.reverse) := by
  refine ⟨?_, ?_, fun _ => rfl, by simp [ofSlots]⟩
  · simp [records, ofSlots]
  · rw [length_quads, List.length_reverse]
    simp only [ofSlots]
    omega

end Reader

theorem length_of_recordsOk {slots : List Int} {limit : Nat} (h : recordsOk slots limit = .ok ()) :
    slots.length % 4 = 0 := by
  unfold recordsOk at h
  split at h
  · cases h
  · rename_i hlength
    simp only [Bool.or_eq_true, decide_eq_true_eq, not_or] at hlength
    omega

/-- A reader of slots that pass the check has a forest to read if they carry one. -/
theorem BuildPlan.Carries.holds {d : BuildPlan} {levels hi : Nat} {slots : List Int}
    {seg : List Record} (h : d.Carries levels hi slots seg)
    (hok : recordsOk slots d.bufferStart = .ok ()) :
    ∃ below, (Reader.ofSlots slots).Holds (seg ++ below) ∧ d.bufferStart = 4 * below.length := by
  obtain ⟨below, hrecords, hstart⟩ := h.records
  have key := Reader.ofSlots_holds (length_of_recordsOk hok)
  rw [hrecords] at key
  exact ⟨below, key, hstart⟩

/-- The slots of an outline carry a forest. -/
theorem Outline.carries_slots {d : BuildPlan} {os : List (Outline Nat)} {hi : Nat}
    (hstart : d.bufferStart = 0) (horder : Outline.InOrder d.start hi os)
    (hword : hi ≤ d.start + maxWord) :
    d.Carries (Outline.depthAll os) hi (Outline.slots os) (Outline.postorderAll os).reverse := by
  refine ⟨⟨[], ?_, hstart⟩, Outline.forest_postorder d os horder, hword⟩
  rw [Outline.reverse_slots, Outline.quads_flatMap, List.append_nil]

/-! ### No overflow -/

/-- Operations in order do not end the program. -/
theorem Operation.granted_halts {d : BuildPlan} {last most : Nat}
    (h : last + d.maxBuffer ≤ maxPos) :
    Operation.Granted (fun op => op.halts = false) d last most where
  minus hle := by simpa [Operation.halts] using hle
  reach hle := by
    simp only [Operation.halts, decide_eq_false_iff_not]
    omega
  offset _ := rfl
  index _ := rfl

/-- **No operation of a build ends the program** where the records form a forest, positions and
lengths of buffers can be added, and few nodes are flattened into one buffer, or none. -/
theorem Tree.buildFromOps_no_halt {d : BuildPlan} {levels hi : Nat} {r : Reader}
    {seg below : List Record} (hstart : d.bufferStart = 4 * below.length)
    (hr : r.Holds (seg ++ below)) (hword : hi ≤ d.start + maxWord)
    (hroom : hi + d.maxBuffer ≤ maxPos) (hseg : d.Forest levels d.start hi seg)
    (hfew : levels ≤ cutoffDepth + 1 ∨ d.Sparse 16383 seg) :
    (Tree.buildFromOps d r).any Operation.halts = false := by
  obtain ⟨most, hsuits⟩ : ∃ most, d.Suits (fun op => op.halts = false) most 0 levels seg := by
    rcases hfew with hshallow | hsparse
    · exact ⟨seg.length, BuildPlan.sparse_of_length (Nat.le_refl _), fun _ _ _ => rfl,
        Or.inl (by omega)⟩
    · refine ⟨16383, hsparse, fun _ _ _ => rfl, Or.inr ⟨by decide, fun {index} hindex => ?_,
        fun _ _ _ _ _ => rfl⟩⟩
      rw [Builder.half_of_le (by omega)]
      simp only [Operation.halts, decide_eq_false_iff_not]
      omega
  rw [List.any_eq_false]
  intro op hop
  rw [Tree.buildFromOps_granted (Operation.granted_halts hroom) hstart hr hword hseg hsuits op hop]
  exact Bool.false_ne_true

/-- Slots that a builder manages: the check rejects them, or they carry a forest to the ends of
which the length of a buffer can be added, and which is not nested so deep that nodes are flattened,
or has no more nodes in any stretch of text than fit into a buffer. -/
def BuildPlan.Manages (d : BuildPlan) (slots : List Int) : Prop :=
  recordsOk slots d.bufferStart = .ok () → ∃ levels hi seg, d.Carries levels hi slots seg ∧
    hi + d.maxBuffer ≤ maxPos ∧ (levels ≤ cutoffDepth + 1 ∨ d.Sparse 16383 seg)

/-- **Building ends with a tree or with the error of an invalid record**, and no operation ends the
program before, for all slots that a builder manages. -/
theorem Tree.buildChecked_answers {d : BuildPlan} {slots : List Int} (h : d.Manages slots) :
    (∃ t, Tree.buildChecked d slots = some (.ok t)) ∨
      ∃ size, Tree.buildChecked d slots = some (.error (.invalidRecord size)) := by
  have hops : (Tree.buildOps d slots).any Operation.halts = false := by
    unfold Tree.buildOps
    split
    · rename_i hok
      obtain ⟨levels, hi, seg, hcarries, hroom, hfew⟩ := h hok
      obtain ⟨below, hholds, hstart⟩ := hcarries.holds hok
      exact Tree.buildFromOps_no_halt hstart hholds hcarries.hi_le hroom hcarries.forest hfew
    · rfl
  unfold Tree.buildChecked
  rw [hops]
  cases hbuild : Tree.build d slots with
  | ok t => exact Or.inl ⟨t, rfl⟩
  | error e =>
      obtain ⟨size, rfl⟩ := Tree.build_error hbuild
      exact Or.inr ⟨size, rfl⟩

/-- The slots of an outline are managed. -/
theorem Outline.manages_slots {d : BuildPlan} {os : List (Outline Nat)} {hi : Nat}
    (hstart : d.bufferStart = 0) (horder : Outline.InOrder d.start hi os)
    (hword : hi ≤ d.start + maxWord) (hroom : hi + d.maxBuffer ≤ maxPos)
    (hdepth : Outline.depthAll os ≤ cutoffDepth + 1) : d.Manages (Outline.slots os) :=
  fun _ => ⟨_, hi, _, Outline.carries_slots hstart horder hword, hroom, Or.inl hdepth⟩

/-- The list of items, which is cut into leaves of a repetition and balanced, is built. -/
theorem Tree.buildChecked_answers_list :
    listPlan.Manages (Outline.slots listForest) ∧
      ((∃ t, Tree.buildChecked listPlan (Outline.slots listForest) = some (.ok t)) ∨
        ∃ size, Tree.buildChecked listPlan (Outline.slots listForest) =
          some (.error (.invalidRecord size))) := by
  have hmanages : listPlan.Manages (Outline.slots listForest) := by
    have hword : 32 ≤ listPlan.start + maxWord := by decide
    refine Outline.manages_slots rfl ?_ hword (by decide) ?_
    · simp [listForest, Outline.InOrder, listPlan]
    · simp [listForest, Outline.depthAll, cutoffDepth]
  exact ⟨hmanages, Tree.buildChecked_answers hmanages⟩

/-- A plan for two types without repetitions. -/
def itemPlan : BuildPlan where
  set := ⟨#[{ epoch := 1, id := 0, name := "List" }, { epoch := 1, id := 1, name := "Item" }]⟩
  top := 0

/-- **Slots that pass the check and end the program.**  A node of type -1 in front of an item is
taken for a node of a repetition when the length of the run is counted, but is copied. -/
theorem Tree.buildChecked_halts :
    (itemPlan.set.get? itemPlan.top).isSome ∧
      recordsOk [-1, 0, 1, 4, 1, 1, 2, 4] itemPlan.bufferStart = .ok () ∧
      Tree.buildChecked itemPlan [-1, 0, 1, 4, 1, 1, 2, 4] = none := by
  refine ⟨rfl, rfl, ?_⟩
  have hops : (Tree.buildOps itemPlan [-1, 0, 1, 4, 1, 1, 2, 4]).any Operation.halts = true := by
    decide +kernel
  exact if_pos hops

end IncrementalLR
