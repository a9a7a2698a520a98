/-
**Nests of records.**

Records are written in postfix order, so a node is found in front of the records below it, newest
first, and its size tells how many these are.  `Nested` says that a list of records is a forest over
a piece of text: every node covers what is below it, and neighbours follow each other.  Some records
may be looked through; which ones depends on who reads them.

The frames of a stack divide its records into segments, one for each symbol.  `Framed` says that
each segment is a forest over the text of its symbol, so that a reduction finds a forest in front
of it, however many symbols it takes.

Main definitions:

* `Nested` — records that form a forest between two positions;
* `Framed` — records that frames divide into forests.

Main results:

* `Nested.append`, `Nested.tail` — forests next to each other, and without their last root;
* `Framed.absorb`, `Framed.drop`, `Framed.focus` — more records in the last segment, fewer frames,
  and another last segment.
-/

import IncrementalLR.Stack.Basic

set_option relaxedAutoImplicit false
set_option autoImplicit false

namespace IncrementalLR

/-! ### Forests -/

/-- Records, newest first, that form a forest between two positions.  Records that satisfy `clear`
may be looked through. -/
inductive Nested (clear : Record → Prop) : Int → Int → List Record → Prop
  | nil {lo hi : Int} : lo ≤ hi → Nested clear lo hi []
  | skip {lo hi : Int} {r : Record} {rest : List Record} : clear r → Nested clear lo hi rest →
      Nested clear lo hi (r :: rest)
  | node {lo hi : Int} {r : Record} {inner outer : List Record} : 0 ≤ r.id →
      r.size = 4 * (inner.length + 1) → r.stop ≤ hi → Nested clear r.start r.stop inner →
      Nested clear lo r.start outer → Nested clear lo hi (r :: (inner ++ outer))

theorem Record.startPos_eq {r : Record} (h : 0 ≤ r.start) : (r.startPos : Int) = r.start :=
  Int.toNat_of_nonneg h

theorem Record.stopPos_eq {r : Record} (h : 0 ≤ r.stop) : (r.stopPos : Int) = r.stop :=
  Int.toNat_of_nonneg h

/-- Only marks of a look-ahead are looked through while a stack is read. -/
def Record.IsMark (r : Record) : Prop := r.size = Record.lookAheadSize

namespace Nested

variable {clear : Record → Prop} {lo mid hi : Int} {r : Record} {rs rest : List Record}

theorem le (h : Nested clear lo hi rs) : lo ≤ hi := by
  induction h with
  | nil hle => exact hle
  | skip _ _ ih => exact ih
  | node _ _ hstop _ _ ihinner ihouter => omega

theorem mono {hi' : Int} (h : Nested clear lo hi rs) (hhi : hi ≤ hi') :
    Nested clear lo hi' rs := by
  induction h with
  | nil hle => exact .nil (Int.le_trans hle hhi)
  | skip hr _ ih => exact .skip hr (ih hhi)
  | node hid hsize hstop hinner houter _ _ =>
      exact .node hid hsize (Int.le_trans hstop hhi) hinner houter

theorem mono_left {lo' : Int} (h : Nested clear lo hi rs) (hlo : lo' ≤ lo) :
    Nested clear lo' hi rs := by
  induction h with
  | nil hle => exact .nil (Int.le_trans hlo hle)
  | skip hr _ ih => exact .skip hr (ih hlo)
  | node hid hsize hstop hinner _ _ ihouter => exact .node hid hsize hstop hinner (ihouter hlo)

/-- A forest in front of another one. -/
theorem append {a b : List Record} (ha : Nested clear mid hi a) (hb : Nested clear lo mid b) :
    Nested clear lo hi (a ++ b) := by
  induction ha with
  | nil hle => exact hb.mono hle
  | skip hr _ ih => exact .skip hr (ih hb)
  | node hid hsize hstop hinner _ _ ihouter =>
      rw [List.cons_append, List.append_assoc]
      exact .node hid hsize hstop hinner (ihouter hb)

/-- What the newest record of a forest is: one to look through, or the root of a tree. -/
theorem head_cases (h : Nested clear lo hi (r :: rest)) :
    (clear r ∧ Nested clear lo hi rest) ∨
      ∃ inner outer, rest = inner ++ outer ∧ 0 ≤ r.id ∧ r.size = 4 * (inner.length + 1) ∧
        r.stop ≤ hi ∧ Nested clear r.start r.stop inner ∧ Nested clear lo r.start outer := by
  cases h with
  | skip hr hrest => exact Or.inl ⟨hr, hrest⟩
  | node hid hsize hstop hinner houter =>
      exact Or.inr ⟨_, _, rfl, hid, hsize, hstop, hinner, houter⟩

/-- The newest record of a forest is the root of a tree if it is no mark. -/
theorem head_node (h : Nested Record.IsMark lo hi (r :: rest)) (hsize : 0 ≤ r.size) :
    ∃ inner outer, rest = inner ++ outer ∧ 0 ≤ r.id ∧ r.size = 4 * (inner.length + 1) ∧
      r.stop ≤ hi ∧ Nested Record.IsMark r.start r.stop inner ∧
      Nested Record.IsMark lo r.start outer := by
  rcases h.head_cases with ⟨hmark, -⟩ | hnode
  · unfold Record.IsMark Record.lookAheadSize at hmark
    omega
  · exact hnode

/-- Without its last root, a forest is still one: the children of the root take its place. -/
theorem tail (h : Nested clear lo hi (r :: rest)) : Nested clear lo hi rest := by
  rcases h.head_cases with ⟨_, hrest⟩ | ⟨inner, outer, rfl, _, _, hstop, hinner, houter⟩
  · exact hrest
  · exact (hinner.append houter).mono hstop

/-- Records that are not looked through lie between the two positions. -/
theorem inside (h : Nested clear lo hi rs) : ∀ x ∈ rs, clear x ∨ lo ≤ x.start ∧ x.stop ≤ hi := by
  induction h with
  | nil => simp
  | skip hr _ ih => exact List.forall_mem_cons.2 ⟨Or.inl hr, ih⟩
  | node _ _ hstop hinner houter ihinner ihouter =>
      have hrange := hinner.le
      have hlo := houter.le
      rw [List.forall_mem_cons, List.forall_mem_append]
      refine ⟨Or.inr ⟨hlo, hstop⟩, fun x hx => ?_, fun x hx => ?_⟩
      · exact (ihinner x hx).imp_right fun hin => by omega
      · exact (ihouter x hx).imp_right fun hin => by omega

/-- A forest may be read by someone who looks through more records. -/
theorem imp {clear' : Record → Prop} (himp : ∀ r, clear r → clear' r)
    (h : Nested clear lo hi rs) : Nested clear' lo hi rs := by
  induction h with
  | nil hle => exact .nil hle
  | skip hr _ ih => exact .skip (himp _ hr) ih
  | node hid hsize hstop _ _ ihinner ihouter => exact .node hid hsize hstop ihinner ihouter

/-- A forest of records that are looked through fits everywhere. -/
theorem of_clear (hle : lo ≤ hi) (h : ∀ r ∈ rs, clear r) : Nested clear lo hi rs := by
  induction rs with
  | nil => exact .nil hle
  | cons r rest ih =>
      exact .skip (h r (by simp)) (ih fun x hx => h x (by simp [hx]))

/-- Records that are no nodes are looked through. -/
theorem clear_of_not_isNode (h : Nested clear lo hi rs) (hnone : ∀ r ∈ rs, r.isNode = false) :
    ∀ r ∈ rs, clear r := by
  induction h with
  | nil => simp
  | skip hr _ ih =>
      rw [List.forall_mem_cons] at hnone ⊢
      exact ⟨hr, ih hnone.2⟩
  | node _ hsize _ _ _ _ _ =>
      have hnode := hnone _ List.mem_cons_self
      simp only [Record.isNode, decide_eq_false_iff_not] at hnode
      omega

/-- A node above a whole forest. -/
theorem root (hid : 0 ≤ r.id) (hsize : r.size = 4 * (rs.length + 1)) (hstart : r.start = lo)
    (hstop : r.stop = hi) (h : Nested clear lo hi rs) : Nested clear lo hi (r :: rs) := by
  subst hstart hstop
  have key : Nested clear r.start r.stop (r :: (rs ++ [])) :=
    .node hid hsize (Int.le_refl _) h (.nil (Int.le_refl _))
  rwa [List.append_nil] at key

/-- The last root of a forest may end later. -/
theorem extend {hi' : Int} (h : Nested clear lo hi (r :: rest)) (hr : ¬ clear r) (hhi : hi ≤ hi') :
    Nested clear lo hi' ({ r with stop := hi' } :: rest) := by
  rcases h.head_cases with ⟨hclear, _⟩ | ⟨inner, outer, rfl, hid, hsize, hstop, hinner, houter⟩
  · exact absurd hclear hr
  · exact .node hid hsize (Int.le_refl _) (hinner.mono (Int.le_trans hstop hhi)) houter

end Nested

/-! ### Frames -/

/-- Records that frames divide into forests between `lo` and a position: the records of the newest
symbol come first, and those before it start where the frame says. -/
def Framed (lo : Int) : Int → List Frame → List Record → Prop
  | hi, [], rs => Nested Record.IsMark lo hi rs
  | hi, f :: fs, rs => ∃ seg below, rs = seg ++ below ∧ f.bufferPos = 4 * below.length ∧
      Nested Record.IsMark f.start hi seg ∧ Framed lo f.start fs below

/-- Where the newest symbol starts. -/
def topStart (lo : Nat) (fs : List Frame) : Nat := (fs.head?.map (·.start)).getD lo

/-- The slots before the records of the newest symbol. -/
def topSlots (fs : List Frame) : Nat := (fs.head?.map (·.bufferPos)).getD 0

namespace Framed

variable {mid hi : Int} {fs : List Frame} {rs : List Record}

/-- The last segment grows by a forest in front of it. -/
theorem absorb {lo : Int} {late : List Record} (h : Framed lo mid fs rs)
    (hlate : Nested Record.IsMark mid hi late) : Framed lo hi fs (late ++ rs) := by
  cases fs with
  | nil => exact hlate.append h
  | cons f fs =>
      obtain ⟨seg, below, rfl, hpos, hseg, hbelow⟩ := h
      exact ⟨late ++ seg, below, (List.append_assoc ..).symm, hpos, hlate.append hseg, hbelow⟩

/-- Without its newest frames, the records are still divided into forests. -/
theorem drop {lo : Int} (n : Nat) (h : Framed lo hi fs rs) : Framed lo hi (fs.drop n) rs := by
  induction n generalizing fs with
  | zero => exact h
  | succ n ih =>
      cases fs with
      | nil => exact h
      | cons f fs =>
          obtain ⟨seg, below, rfl, _, hseg, hbelow⟩ := h
          rw [List.drop_succ_cons]
          exact ih (hbelow.absorb hseg)

/-- All records together are a forest. -/
theorem nested {lo : Int} (h : Framed lo hi fs rs) : Nested Record.IsMark lo hi rs := by
  have key := h.drop fs.length
  rwa [List.drop_length] at key

/-- The records of the newest symbol, which any other forest over its text may replace. -/
theorem focus {lo : Nat} (h : Framed lo hi fs rs) :
    ∃ seg below, rs = seg ++ below ∧ topSlots fs = 4 * below.length ∧
      Nested Record.IsMark (topStart lo fs) hi seg ∧
      ∀ (hi' : Int) (seg' : List Record), Nested Record.IsMark (topStart lo fs) hi' seg' →
        Framed lo hi' fs (seg' ++ below) := by
  cases fs with
  | nil =>
      refine ⟨rs, [], by simp, rfl, h, fun hi' seg' hseg' => ?_⟩
      rwa [List.append_nil]
  | cons f fs =>
      obtain ⟨seg, below, rfl, hpos, hseg, hbelow⟩ := h
      refine ⟨seg, below, rfl, hpos, hseg, fun hi' seg' hseg' => ?_⟩
      exact ⟨seg', below, rfl, hpos, hseg', hbelow⟩

/-- The last root may end later if it belongs to the newest symbol. -/
theorem extend {lo : Nat} {hi' : Int} {r : Record} (h : Framed lo hi fs (r :: rs))
    (hslots : topSlots fs < 4 * (rs.length + 1)) (hr : ¬ r.IsMark) (hhi : hi ≤ hi') :
    Framed lo hi' fs ({ r with stop := hi' } :: rs) := by
  obtain ⟨seg, below, heq, hbelow, hseg, hreplace⟩ := h.focus
  cases seg with
  | nil =>
      -- then all records would lie below the newest symbol
      have hlen := congrArg List.length heq
      simp only [List.length_cons, List.nil_append] at hlen
      omega
  | cons c seg =>
      obtain ⟨rfl, rfl⟩ := List.cons.inj heq
      exact hreplace hi' _ (hseg.extend hr hhi)

/-- A new frame starts after all records. -/
theorem push {lo : Int} {f : Frame} (h : Framed lo f.start fs rs)
    (hpos : f.bufferPos = 4 * rs.length) {seg : List Record}
    (hseg : Nested Record.IsMark f.start hi seg) : Framed lo hi (f :: fs) (seg ++ rs) :=
  ⟨seg, rs, rfl, hpos, hseg, h⟩

end Framed

end IncrementalLR
