/-
**Records whose sizes fit.**

What the builder needs of records in order not to fail is little: the size of each node counts the
records below it, its text does not end before it starts, and its type is known.  Where the nodes
stand in the text does not matter; a tree may come out in which a child ends after its parent, but
it comes out.

`Sized` is the part of this that is about sizes.  Sizes fix how records are divided into trees, so
that a forest can be taken off the front of another one.

Main definitions:

* `Sized` — records whose sizes nest;
* `BuildPlan.Admits` — records that the builder has a type and a length for;
* `Builder.Left` — the records that a step leaves.

Main results:

* `Sized.of_append` — what is left behind a forest is a forest;
* `Builder.take_ok` — **taking nodes does not fail**;
* `Tree.buildFrom_ok` — **a tree is built from all records whose sizes fit**.
-/

import IncrementalLR.Proofs.Building
import IncrementalLR.Proofs.Showing

set_option relaxedAutoImplicit false
set_option autoImplicit false

namespace IncrementalLR

/-! ### Sizes -/

/-- Records, newest first, that form a forest by their sizes.  Records that satisfy `clear` may be
looked through. -/
inductive Sized (clear : Record → Prop) : List Record → Prop
  | nil : Sized clear []
  | skip {r : Record} {rest : List Record} : clear r → Sized clear rest → Sized clear (r :: rest)
  | node {r : Record} {inner outer : List Record} : r.size = 4 * (inner.length + 1) →
      Sized clear inner → Sized clear outer → Sized clear (r :: (inner ++ outer))

namespace Sized

variable {clear : Record → Prop} {r : Record} {rs rest : List Record}

theorem append {a b : List Record} (ha : Sized clear a) (hb : Sized clear b) :
    Sized clear (a ++ b) := by
  induction ha with
  | nil => exact hb
  | skip hr _ ih => exact .skip hr ih
  | node hsize hinner _ _ ihouter =>
      rw [List.cons_append, List.append_assoc]
      exact .node hsize hinner ihouter

/-- What the newest record is: one to look through, or the root of a tree. -/
theorem head_cases (h : Sized clear (r :: rest)) :
    (clear r ∧ Sized clear rest) ∨ ∃ inner outer, rest = inner ++ outer ∧
      r.size = 4 * (inner.length + 1) ∧ Sized clear inner ∧ Sized clear outer := by
  cases h with
  | skip hr hrest => exact Or.inl ⟨hr, hrest⟩
  | node hsize hinner houter => exact Or.inr ⟨_, _, rfl, hsize, hinner, houter⟩

/-- Without its last root, a forest is still one. -/
theorem tail (h : Sized clear (r :: rest)) : Sized clear rest := by
  rcases h.head_cases with ⟨_, hrest⟩ | ⟨inner, outer, rfl, _, hinner, houter⟩
  · exact hrest
  · exact hinner.append houter

theorem imp {clear' : Record → Prop} (himp : ∀ r, clear r → clear' r) (h : Sized clear rs) :
    Sized clear' rs := by
  induction h with
  | nil => exact .nil
  | skip hr _ ih => exact .skip (himp _ hr) ih
  | node hsize _ _ ihinner ihouter => exact .node hsize ihinner ihouter

/-- A node above a whole forest. -/
theorem root (hsize : r.size = 4 * (rs.length + 1)) (h : Sized clear rs) :
    Sized clear (r :: rs) := by
  have key : Sized clear (r :: (rs ++ [])) := .node hsize h .nil
  rwa [List.append_nil] at key

/-- The newest record is the root of a tree if it is no note. -/
theorem head_node (h : Sized Record.IsNote (r :: rest)) (hsize : 0 ≤ r.size) :
    ∃ inner outer, rest = inner ++ outer ∧ r.size = 4 * (inner.length + 1) ∧
      Sized Record.IsNote inner ∧ Sized Record.IsNote outer := by
  rcases h.head_cases with ⟨hnote, -⟩ | hnode
  · exact absurd hnote.size_lt (by omega)
  · exact hnode

theorem head_note (h : Sized Record.IsNote (r :: rest)) (hsize : r.size < 0) : r.IsNote := by
  rcases h.head_cases with ⟨hnote, -⟩ | ⟨inner, outer, -, hnode, -⟩
  · exact hnote
  · omega

/-- **What is left behind a forest is a forest**: sizes leave no choice where its trees end. -/
theorem of_append {a b : List Record} (ha : Sized Record.IsNote a)
    (h : Sized Record.IsNote (a ++ b)) : Sized Record.IsNote b := by
  induction ha with
  | nil => exact h
  | skip _ _ ih => exact ih h.tail
  | @node r inner outer hsize _ _ _ ihouter =>
      rw [List.cons_append, List.append_assoc] at h
      obtain ⟨inner', outer', heq, hsize', -, houter'⟩ := h.head_node (by omega)
      have hlength : inner.length = inner'.length := by omega
      obtain ⟨-, hrest⟩ := List.append_inj heq hlength
      exact ihouter (hrest ▸ houter')

end Sized

/-- A record that stands for itself: a note, or a node without children. -/
def Record.IsSingle (r : Record) : Prop := r.IsNote ∨ r.size = 4

namespace Sized

variable {r : Record} {rs rest : List Record}

theorem single (hr : r.IsSingle) (h : Sized Record.IsNote rest) :
    Sized Record.IsNote (r :: rest) := by
  rcases hr with hnote | hsize
  · exact .skip hnote h
  · show Sized Record.IsNote (r :: ([] ++ rest))
    exact .node hsize .nil h

theorem of_singles (h : ∀ r ∈ rs, r.IsSingle) : Sized Record.IsNote rs := by
  induction rs with
  | nil => exact .nil
  | cons r rest ih =>
      obtain ⟨hr, hrest⟩ := List.forall_mem_cons.1 h
      exact .single hr (ih hrest)

/-- Another record of the same size may stand in front. -/
theorem replace {r' : Record} (h : Sized Record.IsNote (r :: rest)) (hsize : r'.size = r.size) :
    Sized Record.IsNote (r' :: rest) := by
  rcases h.head_cases with ⟨hnote, hrest⟩ | ⟨inner, outer, rfl, hnode, hinner, houter⟩
  · refine .skip ?_ hrest
    unfold Record.IsNote at hnote ⊢
    rwa [hsize]
  · exact .node (hsize.trans hnode) hinner houter

end Sized

/-! ### Packing -/

/-- A record that the builder has a type and a length for, unless it is no node. -/
def BuildPlan.Admits (d : BuildPlan) (r : Record) : Prop :=
  0 ≤ r.size → 0 ≤ r.id ∧ r.id < d.set.size ∧ r.startPos ≤ r.stopPos

theorem Record.IsNote.drops {r : Record} (h : r.IsNote) (d : BuildPlan) : d.drops r = true := by
  have := h.size_lt
  simp only [BuildPlan.drops, Bool.or_eq_true, decide_eq_true_eq]
  omega

namespace Builder

variable {d : BuildPlan}

/-- A run that takes the newest of the records `seg` and leaves a forest. -/
structure Run.Takes (d : BuildPlan) (seg : List Record) (run : Run) (taken rest : List Record) :
    Prop where
  split : seg = taken ++ rest
  size_eq : run.size = 4 * taken.length
  taken : Sized (fun r => d.drops r = true) taken
  rest : Sized Record.IsNote rest

theorem Run.Takes.lookThrough {seg taken rest : List Record} {run : Run} {c : Record}
    (h : run.Takes d seg taken (c :: rest)) (hc : d.drops c = true) :
    Run.Takes d seg { run with size := run.size + 4, skip := run.skip + 4 } (taken ++ [c])
      rest := by
  refine ⟨?_, ?_, h.taken.append (.skip hc .nil), h.rest.tail⟩
  · rw [h.split, List.append_assoc]
    rfl
  · simp only [h.size_eq, List.length_append, List.length_singleton]
    omega

theorem Run.Takes.addNode {seg taken inner outer : List Record} {run : Run} {c : Record}
    (h : run.Takes d seg taken (c :: (inner ++ outer))) (hsize : c.size = 4 * (inner.length + 1))
    (hinner : Sized Record.IsNote inner) (houter : Sized Record.IsNote outer) (start skip : Nat) :
    Run.Takes d seg ⟨run.size + c.size.toNat, start, skip⟩ (taken ++ c :: inner) outer := by
  refine ⟨?_, ?_, h.taken.append (.root hsize (hinner.imp fun r hr => hr.drops d)), houter⟩
  · rw [h.split]
    simp
  · simp only [h.size_eq, List.length_append, List.length_cons]
    omega

/-- Looking over the records goes from one run to the next. -/
theorem scanF_takes {inRepeat : Int} (minStart : Nat) {seg below : List Record}
    (hrepeat : inRepeat = -1 ∨ d.repeatFrom ≤ inRepeat) (hseg : ∀ r ∈ seg, d.Admits r) (fuel : Nat)
    {r : Reader} {whole complete : Run} {taken rest : List Record} (hr : r.Holds (rest ++ below))
    (hwhole : whole.Takes d seg taken rest) (hcomplete : ∃ t l, complete.Takes d seg t l) :
    (∃ t l, (scanF d (4 * below.length) minStart inRepeat fuel r whole complete).1.Takes
        d seg t l) ∧
      ∃ t l, (scanF d (4 * below.length) minStart inRepeat fuel r whole complete).2.Takes
        d seg t l := by
  induction fuel generalizing r whole complete taken rest with
  | zero => exact ⟨⟨_, _, hwhole⟩, hcomplete⟩
  | succ fuel ih =>
      rw [scanF]
      cases rest with
      | nil =>
          have hpos := hr.pos_eq
          rw [List.nil_append] at hpos
          simp only [hpos, Nat.le_refl, if_true]
          exact ⟨⟨_, _, hwhole⟩, hcomplete⟩
      | cons c rest =>
          rw [List.cons_append] at hr
          obtain ⟨hrecord, hnext⟩ := hr.next
          have hpos := hr.pos_eq
          simp only [List.length_append, List.length_cons] at hpos
          simp only [hrecord]
          rw [if_neg (by omega)]
          split
          · -- a node of the enclosing repetition
            rename_i hsame
            simp only [Bool.and_eq_true, decide_eq_true_eq] at hsame
            have hc : c ∈ seg := by
              rw [hwhole.split]
              exact List.mem_append_right _ List.mem_cons_self
            have hid := (hseg c hc hsame.2).1
            have hdrops : d.drops c = true := by
              simp only [BuildPlan.drops, Bool.or_eq_true, decide_eq_true_eq]
              omega
            exact ih hnext (hwhole.lookThrough hdrops) ⟨_, _, hwhole⟩
          · split
            · exact ⟨⟨_, _, hwhole⟩, hcomplete⟩
            · rename_i hfits
              simp only [Bool.or_eq_true, decide_eq_true_eq, not_or] at hfits
              obtain ⟨inner, outer, rfl, hsize, hinner, houter⟩ :=
                hwhole.rest.head_node (by omega)
              have hslots : r.pos - c.size.toNat = 4 * (outer ++ below).length := by
                simp only [List.length_append] at hpos ⊢
                omega
              rw [List.append_assoc] at hnext
              simp only [hslots]
              cases hpass : passF d (4 * (outer ++ below).length) r.pos r.next
                  (if d.repeatFrom ≤ c.id then 4 else 0) with
              | none => exact ⟨⟨_, _, hwhole⟩, hcomplete⟩
              | some passed =>
                  simp only [List.length_append] at hpos
                  obtain ⟨r', skipped⟩ := passed
                  obtain ⟨hr', -⟩ := passF_holds inner r.pos hnext (by omega) hpass
                  exact ih hr' (hwhole.addNode hsize hinner houter _ _) hcomplete

/-- A run that is found takes at least one record. -/
theorem findRun_takes {inRepeat : Int} {r : Reader} {seg below : List Record} {run : Run}
    (hrepeat : inRepeat = -1 ∨ d.repeatFrom ≤ inRepeat) (hr : r.Holds (seg ++ below))
    (hsized : Sized Record.IsNote seg) (hseg : ∀ r ∈ seg, d.Admits r)
    (h : findRun d r (4 * below.length) inRepeat = some run) :
    ∃ taken rest, taken ≠ [] ∧ run.Takes d seg taken rest := by
  have hstart : Run.Takes d seg {} [] seg := ⟨rfl, rfl, .nil, hsized⟩
  have key := scanF_takes (r.record.stopPos - d.maxBuffer) hrepeat hseg r.pos hr hstart
    ⟨_, _, hstart⟩
  unfold findRun at h
  simp only at h
  generalize scanF d (4 * below.length) (r.record.stopPos - d.maxBuffer) inRepeat r.pos r {} {} =
    found at h key
  have hpart : ∃ t l, (if inRepeat < 0 || found.1.size = r.pos - 4 * below.length then found.1
      else found.2).Takes d seg t l := by
    split
    · exact key.1
    · exact key.2
  generalize (if inRepeat < 0 || found.1.size = r.pos - 4 * below.length then found.1
    else found.2) = chosen at h hpart
  split at h
  · rename_i hsize
    obtain rfl := Option.some.inj h
    obtain ⟨taken, rest, htakes⟩ := hpart
    refine ⟨taken, rest, ?_, htakes⟩
    rintro rfl
    rw [htakes.size_eq] at hsize
    simp at hsize
  · cases h

/-- Copying a node reads what is below it. -/
def ReadsNode (d : BuildPlan) (base fuel : Nat) : Prop :=
  ∀ {c : Record} {inner below : List Record} {b : Builder} (index : Nat) (out : List Nat),
    b.reader.Holds (c :: (inner ++ below)) → d.drops c = false → c.size = 4 * (inner.length + 1) →
    Sized (fun r => d.drops r = true) inner → 2 * (inner.length + 1) ≤ fuel →
      (copyNodeF d base fuel b index out).1.reader.Holds below

/-- Copying a run reads all of it. -/
def ReadsRun (d : BuildPlan) (base fuel : Nat) : Prop :=
  ∀ {seg below : List Record} {b : Builder} (index : Nat) (out : List Nat),
    b.reader.Holds (seg ++ below) → Sized (fun r => d.drops r = true) seg →
    2 * seg.length + 1 ≤ fuel →
      (copyRunF d base fuel (4 * below.length) b index out).1.reader.Holds below

theorem readsNode_step {base fuel : Nat} (hrun : ReadsRun d base fuel) :
    ReadsNode d base (fuel + 1) := by
  intro c inner below b index out hb hdrops hsize hinner hfuel
  obtain ⟨hrecord, hnext⟩ := hb.next
  have hkeep : (decide (0 ≤ c.size) && decide (c.id < d.repeatFrom)) = true := by
    simp only [BuildPlan.drops, Bool.or_eq_false_iff, decide_eq_false_iff_not] at hdrops
    simp only [Bool.and_eq_true, decide_eq_true_eq]
    omega
  rw [copyNodeF]
  simp only [hrecord, hkeep, if_true]
  split
  · have hslots : b.next.reader.pos - (c.size.toNat - 4) = 4 * below.length := by
      have hpos := hnext.pos_eq
      rw [List.length_append] at hpos
      simp only [Builder.next]
      omega
    rw [hslots]
    exact hrun index out hnext hinner (by omega)
  · obtain rfl : inner = [] := List.eq_nil_of_length_eq_zero (by omega)
    exact hnext

theorem readsRun_step {base fuel : Nat} (hnode : ReadsNode d base fuel)
    (hrun : ReadsRun d base fuel) : ReadsRun d base (fuel + 1) := by
  intro seg below b index out hb hseg hfuel
  have hpos := hb.pos_eq
  rw [copyRunF]
  cases seg with
  | nil =>
      rw [if_pos (by rw [hpos]; simp)]
      exact hb
  | cons c rest =>
      rw [List.cons_append] at hb hpos
      simp only [List.length_cons, List.length_append] at hpos hfuel
      obtain ⟨hrecord, hnext⟩ := hb.next
      rw [if_neg (by omega)]
      simp only
      cases hdrops : d.drops c with
      | true =>
          rw [copyNodeF_of_drops (by rw [hrecord]; exact hdrops) (by omega), hrecord]
          refine hrun _ _ ?_ hseg.tail (by omega)
          rw [reader_mark]
          exact hnext
      | false =>
          rcases hseg.head_cases with ⟨hclear, _⟩ | ⟨inner, outer, rfl, hsize, hinner, houter⟩
          · rw [hdrops] at hclear
            cases hclear
          · rw [List.append_assoc] at hb
            simp only [List.length_append] at hfuel
            have hcopied := hnode index out hb hdrops hsize hinner (by omega)
            exact hrun _ _ hcopied houter (by omega)

theorem copy_reads (d : BuildPlan) (base fuel : Nat) :
    ReadsNode d base fuel ∧ ReadsRun d base fuel := by
  induction fuel with
  | zero =>
      constructor
      · intro _ _ _ _ _ _ _ _ _ _ hfuel
        omega
      · intro _ _ _ _ _ _ _ hfuel
        omega
  | succ fuel ih => exact ⟨readsNode_step ih.2, readsRun_step ih.1 ih.2⟩

/-- Packing a run reads all of it. -/
theorem pack_reads {b : Builder} {run : Run} {seg below taken rest : List Record}
    (hb : b.reader.Holds (seg ++ below)) (hrun : run.Takes d seg taken rest) (stop : Nat) :
    (pack d b run stop).1.reader.Holds (rest ++ below) := by
  obtain ⟨rfl, hsize, htaken, -⟩ := hrun
  rw [List.append_assoc] at hb
  have hpos := hb.pos_eq
  simp only [List.length_append] at hpos
  have hslots : b.reader.pos - run.size = 4 * (rest ++ below).length := by
    simp only [List.length_append]
    omega
  unfold pack
  simp only [hslots]
  exact (copy_reads d run.start _).2 _ _ hb htaken (by omega)

/-! ### Steps of the builder -/

/-- The records that a step leaves of those at a reader: the older ones, which are a forest. -/
structure Left (seg below : List Record) (b : Builder) (rest : List Record) : Prop where
  suffix : rest <:+ seg
  sized : Sized Record.IsNote rest
  reader : b.reader.Holds (rest ++ below)

theorem Left.cons {seg below rest : List Record} {b : Builder} (h : Left seg below b rest)
    (c : Record) : Left (c :: seg) below b rest :=
  ⟨h.suffix.trans (List.suffix_cons c seg), h.sized, h.reader⟩

/-- A note is taken on its own. -/
theorem takeMarker_ok {seg below : List Record} {c : Record} {b : Builder}
    (hb : b.reader.Holds (c :: (seg ++ below))) (hc : c.IsNote)
    (hsized : Sized Record.IsNote seg) (parentStart : Nat) (cs : List (Nat × Tree)) :
    ∃ cs' b', takeMarker d parentStart cs b = .ok (cs', b') ∧ Left (c :: seg) below b' seg := by
  obtain ⟨hrecord, hnext⟩ := hb.next
  have hreuse : c.size ≠ Record.reuseSize := by
    unfold Record.IsNote Record.contextSize Record.lookAheadSize at hc
    unfold Record.reuseSize
    omega
  have hnote : (decide (c.size = Record.contextSize) || decide (c.size = Record.lookAheadSize)) =
      true := by
    simpa [Record.IsNote] using hc
  refine ⟨cs, b.next.mark c, ?_, List.suffix_cons c seg, hsized, ?_⟩
  · rw [takeMarker]
    simp only [hrecord, hreuse, if_false, hnote, if_true]
  · rw [reader_mark]
    exact hnext

/-- Collecting stops at the end or at a note if it finds no node. -/
theorem collectF_left {below : List Record} (fuel : Nat) {b : Builder} {floor : Option Nat}
    {seg nodes : List Record} (hb : b.reader.Holds (seg ++ below))
    (hsized : Sized Record.IsNote seg) (hfuel : seg.length ≤ fuel)
    (hfloor : nodes = [] → floor = none) :
    ∃ rest, Left seg below (collectF d (4 * below.length) fuel b floor nodes).1 rest ∧
      ((collectF d (4 * below.length) fuel b floor nodes).2 = [] →
        rest = [] ∨ ∃ c rest', rest = c :: rest' ∧ c.IsNote) := by
  induction fuel generalizing b floor seg nodes with
  | zero =>
      obtain rfl : seg = [] := List.eq_nil_of_length_eq_zero (by omega)
      exact ⟨[], ⟨List.suffix_refl _, hsized, hb⟩, fun _ => Or.inl rfl⟩
  | succ fuel ih =>
      have hpos := hb.pos_eq
      rw [collectF]
      cases seg with
      | nil =>
          simp only [hpos, List.nil_append, Nat.le_refl, if_true]
          exact ⟨[], ⟨List.suffix_refl _, hsized, hb⟩, fun _ => Or.inl rfl⟩
      | cons c rest =>
          rw [List.cons_append] at hb
          obtain ⟨hrecord, hnext⟩ := hb.next
          simp only [List.cons_append, List.length_cons, List.length_append] at hpos hfuel
          simp only [hrecord]
          rw [if_neg (by omega)]
          split
          · -- a node with children is dropped
            obtain ⟨rest', hleft, hnone⟩ := ih (b := b.next) hnext hsized.tail (by omega) hfloor
            exact ⟨rest', hleft.cons c, hnone⟩
          · split
            · rename_i hstop
              refine ⟨c :: rest, ⟨List.suffix_refl _, hsized, hb⟩, fun hempty => Or.inr ?_⟩
              simp only at hempty
              simp only [hfloor hempty, Option.any_none, Bool.or_false, decide_eq_true_eq] at hstop
              exact ⟨c, rest, rfl, hsized.head_note hstop⟩
            · have hfloor' : c :: nodes = [] →
                  some (floor.getD (c.stopPos - d.maxBuffer)) = none := by simp
              obtain ⟨rest', hleft, hnone⟩ :=
                ih (b := b.next) hnext hsized.tail (by omega) hfloor'
              exact ⟨rest', hleft.cons c, hnone⟩

theorem takeFlat_ok {seg below : List Record} {b : Builder} (hb : b.reader.Holds (seg ++ below))
    (hsized : Sized Record.IsNote seg) (parentStart : Nat) (cs : List (Nat × Tree)) :
    ∃ cs' b' rest, takeFlat d parentStart (4 * below.length) cs b = .ok (cs', b') ∧
      Left seg below b' rest := by
  have hpos := hb.pos_eq
  rw [List.length_append] at hpos
  have hfloor : ([] : List Record) = [] → (none : Option Nat) = none := fun _ => rfl
  obtain ⟨rest, hleft, hnone⟩ := collectF_left (d := d) b.reader.pos hb hsized (by omega) hfloor
  unfold takeFlat
  simp only
  generalize collectF d (4 * below.length) b.reader.pos b none [] = found at hleft hnone
  obtain ⟨b', nodes⟩ := found
  cases nodes with
  | cons first nodes =>
      obtain ⟨last, hlast⟩ : ∃ last, (first :: nodes).getLast? = some last :=
        ⟨_, List.getLast?_eq_some_getLast (by simp)⟩
      simp only [hlast]
      exact ⟨_, _, rest, rfl, hleft⟩
  | nil =>
      simp only
      split
      · rename_i hmore
        have hpos' := hleft.reader.pos_eq
        simp only [List.length_append] at hpos'
        rcases hnone rfl with rfl | ⟨c, rest', rfl, hc⟩
        · simp only [List.length_nil] at hpos'
          omega
        · obtain ⟨cs', b'', hok, hleft'⟩ :=
            takeMarker_ok (d := d) hleft.reader hc hleft.sized.tail parentStart cs
          exact ⟨cs', b'', rest', hok, hleft'.suffix.trans hleft.suffix, hleft'.sized,
            hleft'.reader⟩
      · exact ⟨_, _, rest, rfl, hleft⟩

theorem typeOf_ok {c : Record} (h : d.Admits c) (hsize : 0 ≤ c.size) :
    ∃ ty, d.typeOf c.id = .ok ty := by
  obtain ⟨hid, hlt, -⟩ := h hsize
  have hget : c.id.toNat < d.set.size := by omega
  have hsome : d.set.get? c.id.toNat = some (d.set.types[c.id.toNat]) :=
    Array.getElem?_eq_getElem hget
  refine ⟨d.set.types[c.id.toNat], ?_⟩
  unfold BuildPlan.typeOf
  rw [if_pos hid, hsome]

/-- What taking a node leaves with some fuel. -/
def NodeOk (d : BuildPlan) (fuel : Nat) : Prop :=
  ∀ (parentStart : Nat) (inRepeat : Int) (depth : Nat) (cs : List (Nat × Tree)) {b : Builder}
    {seg below : List Record}, b.reader.Holds (seg ++ below) → seg ≠ [] →
    Sized Record.IsNote seg → (∀ r ∈ seg, d.Admits r) →
    (inRepeat = -1 ∨ d.repeatFrom ≤ inRepeat) →
    ∃ cs' b' rest, takeNodeF d fuel parentStart (4 * below.length) inRepeat depth cs b =
      .ok (cs', b') ∧ Left seg below b' rest

/-- What taking the children of a node leaves with some fuel. -/
def ChildrenOk (d : BuildPlan) (fuel : Nat) : Prop :=
  ∀ (p : Parent) (f : Family) {b : Builder} {seg below : List Record},
    b.reader.Holds (seg ++ below) → Sized Record.IsNote seg → (∀ r ∈ seg, d.Admits r) →
    (p.inRepeat = -1 ∨ d.repeatFrom ≤ p.inRepeat) →
    ∃ f' b' rest, takeChildrenF d fuel p (4 * below.length) f b = .ok (f', b') ∧
      Left seg below b' rest

/-- After the records inside of a node, those outside of it are left as well. -/
theorem Left.leave {b : Builder} {inner outer below left : List Record}
    (h : Left inner (outer ++ below) b left) (c : Record) (houter : Sized Record.IsNote outer) :
    Left (c :: (inner ++ outer)) below b (left ++ outer) := by
  refine ⟨?_, h.sized.append houter, ?_⟩
  · obtain ⟨front, hfront⟩ := h.suffix
    refine ⟨c :: front, ?_⟩
    rw [← hfront]
    simp
  · rw [List.append_assoc]
    exact h.reader

theorem takeNodeF_ok {fuel : Nat} (hchildren : ChildrenOk d fuel) : NodeOk d (fuel + 1) := by
  intro parentStart inRepeat depth cs b seg below hb hne hsized hadmits hrepeat
  cases seg with
  | nil => exact absurd rfl hne
  | cons c rest =>
      have hpos := hb.pos_eq
      simp only [List.length_append, List.length_cons] at hpos
      have hc := hadmits c List.mem_cons_self
      obtain ⟨hrecord, hnext⟩ := hb.next
      rw [takeNodeF]
      simp only [hrecord]
      split
      · rename_i hneg
        obtain ⟨cs', b', hok, hleft⟩ :=
          takeMarker_ok (d := d) hb (hsized.head_note hneg) hsized.tail parentStart cs
        exact ⟨cs', b', rest, hok, hleft⟩
      · rename_i hnode
        obtain ⟨inner, outer, rfl, hsize, hinner, houter⟩ := hsized.head_node (by omega)
        obtain ⟨-, -, hrange⟩ := hc (by omega)
        simp only [List.length_append] at hpos
        have hfits : ¬ (decide (c.size < 4) ||
            decide (((b.reader.pos - 4 * below.length : Nat) : Int) < c.size) ||
            decide (c.stopPos < c.startPos)) = true := by
          simp only [Bool.or_eq_true, decide_eq_true_eq, not_or]
          omega
        rw [if_neg hfits]
        obtain ⟨ty, hty⟩ := typeOf_ok hc (by omega)
        rw [hty]
        cases hrun : (if c.stopPos - c.startPos ≤ d.maxBuffer then
            findRun d b.reader (4 * below.length) inRepeat else none) with
        | some run =>
            have hfound : findRun d b.reader (4 * below.length) inRepeat = some run := by
              split at hrun
              · exact hrun
              · cases hrun
            obtain ⟨taken, left, -, htakes⟩ := findRun_takes hrepeat hb hsized hadmits hfound
            refine ⟨_, _, left, rfl, ?_, htakes.rest, pack_reads hb htakes c.stopPos⟩
            rw [htakes.split]
            exact List.suffix_append taken left
        | none =>
            have hslots : b.reader.pos - c.size.toNat = 4 * (outer ++ below).length := by
              simp only [List.length_append]
              omega
            rw [List.append_eq, List.append_assoc] at hnext
            have hchild : b.next.reader.Holds (inner ++ (outer ++ below)) := hnext
            have hinnerAdmits : ∀ r ∈ inner, d.Admits r := fun r hr =>
              hadmits r (List.mem_cons_of_mem _ (List.mem_append_left _ hr))
            obtain ⟨f', b', left, hok, hleft⟩ := hchildren
              { type := ty, start := c.startPos, stop := c.stopPos,
                inRepeat := if d.repeatFrom ≤ c.id then c.id else -1,
                lookAhead := b.lookAhead, contextHash := b.contextHash, depth }
              { groupStop := c.stopPos } hchild hinner hinnerAdmits (repeat_cases d c)
            rw [hslots]
            simp only [Except.bind, bind, Except.pure, pure, hok]
            exact ⟨_, _, left ++ outer, rfl, hleft.leave c houter⟩

theorem takeChildrenF_ok {fuel : Nat} (hnode : NodeOk d fuel) (hchildren : ChildrenOk d fuel) :
    ChildrenOk d (fuel + 1) := by
  intro p f b seg below hb hsized hadmits hrepeat
  have hpos := hb.pos_eq
  -- going on with what a step has left
  have hgoOn : ∀ (f : Family) {b : Builder} {rest : List Record}, Left seg below b rest →
      ∃ f' b' rest, takeChildrenF d fuel p (4 * below.length) f b = .ok (f', b') ∧
        Left seg below b' rest := by
    intro f b rest hleft
    obtain ⟨f', b', rest', hok, hleft'⟩ := hchildren p f hleft.reader hleft.sized
      (fun r hr => hadmits r (hleft.suffix.mem hr)) hrepeat
    exact ⟨f', b', rest', hok, hleft'.suffix.trans hleft.suffix, hleft'.sized, hleft'.reader⟩
  rw [takeChildrenF]
  cases seg with
  | nil =>
      rw [List.nil_append] at hpos
      simp only [hpos, Nat.le_refl, if_true]
      exact ⟨f, b, [], rfl, List.suffix_refl _, hsized, hb⟩
  | cons c rest =>
      simp only [List.length_append, List.length_cons] at hpos
      obtain ⟨hrecord, hnext⟩ := hb.next
      rw [if_neg (by omega)]
      simp only [hrecord]
      split
      · exact hgoOn _ ⟨List.suffix_cons c rest, hsized.tail, hnext⟩
      · split
        · obtain ⟨cs', b', left, hok, hleft⟩ := takeFlat_ok (d := d) hb hsized p.start f.children
          rw [hok]
          exact hgoOn _ hleft
        · obtain ⟨cs', b', left, hok, hleft⟩ := hnode p.start p.inRepeat (p.depth + 1) f.children
            hb (by simp) hsized hadmits hrepeat
          rw [hok]
          exact hgoOn _ hleft

/-- **Taking nodes does not fail.** -/
theorem take_ok (d : BuildPlan) (fuel : Nat) : NodeOk d fuel ∧ ChildrenOk d fuel := by
  induction fuel with
  | zero =>
      constructor
      · intro parentStart inRepeat depth cs b seg below hb _ hsized _ _
        exact ⟨cs, b, seg, rfl, List.suffix_refl _, hsized, hb⟩
      · intro p f b seg below hb hsized _ _
        exact ⟨f, b, seg, rfl, List.suffix_refl _, hsized, hb⟩
  | succ fuel ih => exact ⟨takeNodeF_ok ih.2, takeChildrenF_ok ih.1 ih.2⟩

theorem takeAllF_ok (hstart : d.bufferStart = 0) (fuel : Nat) {seg : List Record}
    (cs : List (Nat × Tree)) {b : Builder} (hb : b.reader.Holds seg)
    (hsized : Sized Record.IsNote seg) (hadmits : ∀ r ∈ seg, d.Admits r) :
    ∃ cs', takeAllF d fuel cs b = .ok cs' := by
  induction fuel generalizing seg cs b with
  | zero => exact ⟨cs, rfl⟩
  | succ fuel ih =>
      rw [takeAllF, hstart]
      split
      · exact ⟨cs, rfl⟩
      · rename_i hmore
        have hne : seg ≠ [] := by
          rintro rfl
          have hpos := hb.pos_eq
          simp only [List.length_nil] at hpos
          omega
        have hb' : b.reader.Holds (seg ++ []) := by rwa [List.append_nil]
        obtain ⟨cs', b', rest, hok, hleft⟩ := (take_ok d (2 * b.reader.pos + 2)).1 d.start (-1) 0
          cs hb' hne hsized hadmits (Or.inl rfl)
        have hreader := hleft.reader
        rw [List.append_nil] at hreader
        obtain ⟨all, hall⟩ := ih cs' hreader hleft.sized fun r hr => hadmits r (hleft.suffix.mem hr)
        refine ⟨all, ?_⟩
        rw [List.length_nil, Nat.mul_zero] at hok
        rw [hok]
        exact hall

end Builder

/-- **A tree is built from all records whose sizes fit.** -/
theorem Tree.buildFrom_ok {d : BuildPlan} {r : Reader} {seg : List Record}
    (hstart : d.bufferStart = 0) (htop : d.top < d.set.size) (hr : r.Holds seg)
    (hsized : Sized Record.IsNote seg) (hadmits : ∀ r ∈ seg, d.Admits r) :
    ∃ t, Tree.buildFrom d r = .ok t := by
  have hsome : d.set.get? d.top = some (d.set.types[d.top]) := Array.getElem?_eq_getElem htop
  have hb : (Builder.reader { reader := r }).Holds seg := hr
  obtain ⟨cs, hcs⟩ := Builder.takeAllF_ok hstart (r.pos + 1) [] hb hsized hadmits
  unfold Tree.buildFrom
  rw [hsome, hcs]
  exact ⟨_, rfl⟩

end IncrementalLR
