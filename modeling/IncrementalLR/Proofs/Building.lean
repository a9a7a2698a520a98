/-
**Building keeps records nested.**

The builder reads a forest of records from its end, and puts each node in front of the children that
it has taken so far.  Between two steps the records that are left lie before a position, and the
children that were taken lie after it; a step moves the position back over what it takes.

The children of a repetition are cut into leaves on the way.  `Family.Fitted` keeps the two parts
apart: children of finished leaves, and those of the leaf that is still open.

Main definitions:

* `Builder.Family.Fitted` — the children that a family has collected down to a position;
* `Builder.Taken` — what one step takes;
* `Builder.TakesNode`, `Builder.TakesChildren` — what taking ensures with some fuel.

Main results:

* `Builder.take_spec` — taking a node, and taking the children of one;
* `Tree.formed_buildFrom` — a tree that is built from a forest of records is formed.
-/

import IncrementalLR.Proofs.Balancing
import IncrementalLR.Proofs.Packing

set_option relaxedAutoImplicit false
set_option autoImplicit false

namespace IncrementalLR

/-! ### New nodes -/

/-- What a node of a balanced repetition is: a branch, or its only child, if that is as long. -/
theorem makeRepeat_cases (ty : NodeType) (contextHash : Nat) (cs : List (Nat × Tree))
    (length : Nat) :
    (∃ lookAhead, makeRepeat ty contextHash cs length =
        makeBranch ty cs length lookAhead contextHash) ∨
      ∃ pos t, cs = [(pos, t)] ∧ t.length = length ∧ makeRepeat ty contextHash cs length = t := by
  unfold makeRepeat
  cases hlast : cs.getLast? with
  | none => exact Or.inl ⟨_, rfl⟩
  | some last =>
      obtain ⟨pos, last⟩ := last
      simp only
      split
      · split
        · rename_i hsame
          simp only [Bool.and_eq_true, decide_eq_true_eq] at hsame
          obtain ⟨c, rfl⟩ := List.length_eq_one_iff.1 hsame.1.1
          obtain rfl : c = (pos, last) := by simpa using hlast
          exact Or.inr ⟨pos, last, rfl, hsame.2, rfl⟩
        · exact Or.inl ⟨_, rfl⟩
      · exact Or.inl ⟨_, rfl⟩

section Make

variable {P : Buffer → Prop} {cs : List (Nat × Tree)} {length : Nat}

theorem formed_make (ty : NodeType) (ps : List (PropKey × PropValue)) (hword : length ≤ maxWord)
    (h : Tree.Fits P 0 length cs) : (Tree.make ty cs length ps).Formed P ∧
      (Tree.make ty cs length ps).length = length := by
  have hmin : min length maxWord = length := Nat.min_eq_left hword
  refine ⟨⟨?_, h.formed⟩, hmin⟩
  rw [hmin]
  exact h.inOrder

theorem makes_makeBranch (ty : NodeType) (lookAhead contextHash : Nat) :
    Tree.Makes P fun cs length => makeBranch ty cs length lookAhead contextHash :=
  fun _ _ hword h => formed_make ty _ hword h

theorem makes_makeRepeat (ty : NodeType) (contextHash : Nat) :
    Tree.Makes P (makeRepeat ty contextHash) := by
  intro cs length hword h
  rcases makeRepeat_cases ty contextHash cs length with ⟨lookAhead, heq⟩ | ⟨pos, t, rfl, hlen, heq⟩
  · rw [heq]
    exact makes_makeBranch ty lookAhead contextHash cs length hword h
  · rw [heq]
    exact ⟨h.of_cons.2.1, hlen⟩

end Make

namespace Builder

/-! ### Families -/

/-- The children that a family has collected down to a position: those of the unfinished leaf lie
before its end, the others after it. -/
structure Family.Fitted (p : Parent) (hi : Nat) (f : Family)
    (ungrouped grouped : List (Nat × Tree)) : Prop where
  children_eq : f.children = ungrouped ++ grouped
  grouped_eq : f.grouped = grouped.length
  start_le : p.start ≤ hi
  hi_le : hi ≤ f.groupStop
  stop_le : f.groupStop ≤ p.stop
  fits_ungrouped : Tree.Fits Buffer.Sound (hi - p.start) (f.groupStop - p.start) ungrouped
  fits_grouped : Tree.Fits Buffer.Sound (f.groupStop - p.start) (p.stop - p.start) grouped

namespace Family.Fitted

variable {p : Parent} {hi : Nat} {f : Family} {ungrouped grouped : List (Nat × Tree)}

/-- Nothing is collected yet. -/
theorem start {p : Parent} (h : p.start ≤ p.stop) :
    Family.Fitted p p.stop { groupStop := p.stop } [] [] :=
  ⟨rfl, rfl, h, Nat.le_refl _, Nat.le_refl _, .nil (Nat.le_refl _), .nil (Nat.le_refl _)⟩

/-- All children together. -/
theorem fits (h : f.Fitted p hi ungrouped grouped) :
    Tree.Fits Buffer.Sound (hi - p.start) (p.stop - p.start) f.children := by
  rw [h.children_eq]
  exact h.fits_ungrouped.append h.fits_grouped

theorem mono {hi' : Nat} (h : f.Fitted p hi ungrouped grouped) (hstart : p.start ≤ hi')
    (hle : hi' ≤ hi) : f.Fitted p hi' ungrouped grouped :=
  { h with
    start_le := hstart
    hi_le := Nat.le_trans hle h.hi_le
    fits_ungrouped := h.fits_ungrouped.mono_left (Nat.sub_le_sub_right hle _) }

/-- More children of the unfinished leaf. -/
theorem addChildren {hi' : Nat} {new : List (Nat × Tree)} (h : f.Fitted p hi ungrouped grouped)
    (hstart : p.start ≤ hi') (hle : hi' ≤ hi)
    (hnew : Tree.Fits Buffer.Sound (hi' - p.start) (hi - p.start) new) :
    Family.Fitted p hi' { f with children := new ++ f.children } (new ++ ungrouped) grouped := by
  refine ⟨?_, h.grouped_eq, hstart, Nat.le_trans hle h.hi_le, h.stop_le,
    hnew.append h.fits_ungrouped, h.fits_grouped⟩
  rw [h.children_eq, List.append_assoc]

/-- What finishing the leaf of a repetition does: its children are counted from the start of the
leaf. -/
theorem close_eq {start : Nat} (h : f.Fitted p hi ungrouped grouped)
    (hword : p.stop - p.start ≤ maxWord) (hle : start ≤ hi) :
    f.close p start = ⟨(start - p.start, makeBranch p.type
      (ungrouped.map fun c => (Tree.word (c.1 + p.start - start), c.2)) (f.groupStop - start)
      (p.lookAhead - f.groupStop) p.contextHash) :: grouped, grouped.length + 1, start⟩ := by
  have hhi := h.hi_le
  have hstop := h.stop_le
  have hcount : f.children.length - f.grouped = ungrouped.length := by
    rw [h.children_eq, List.length_append, h.grouped_eq]
    omega
  simp only [Family.close, repeatLeaf, hcount]
  rw [h.children_eq, List.take_left, List.drop_left, Tree.word_of_le (by omega), List.length_cons]

/-- Finishing the leaf of a repetition. -/
theorem close {start : Nat} (h : f.Fitted p hi ungrouped grouped)
    (hword : p.stop - p.start ≤ maxWord) (hstart : p.start ≤ start) (hle : start ≤ hi) :
    ∃ leaf, (f.close p start).Fitted p start [] (leaf :: grouped) := by
  have hhi := h.hi_le
  have hstop := h.stop_le
  -- counted from the start of the leaf, the children of the leaf fit into it
  have hmoved : Tree.Fits Buffer.Sound 0 (f.groupStop - start)
      (ungrouped.map fun c => (Tree.word (c.1 + p.start - start), c.2)) := by
    refine h.fits_ungrouped.move (f := fun n => Tree.word (n + p.start - start)) (Nat.zero_le _)
      ?_ ?_
    · rw [Tree.word_of_le (by omega)]
      omega
    · intro a b ha hb
      rw [Tree.word_of_le (by omega), Tree.word_of_le (by omega)]
      omega
  obtain ⟨hformed, hlength⟩ := makes_makeBranch p.type (p.lookAhead - f.groupStop) p.contextHash
    _ _ (by omega) hmoved
  rw [h.close_eq hword hle]
  refine ⟨_, rfl, rfl, hstart, Nat.le_refl _, by simp only; omega, .nil (Nat.le_refl _), ?_⟩
  refine .cons (Nat.le_refl _) hformed ?_
  simp only at hlength ⊢
  rw [hlength, show start - p.start + (f.groupStop - start) = f.groupStop - p.start by omega]
  exact h.fits_grouped

/-- **The node of a family that has collected all children.** -/
theorem node (h : f.Fitted p p.start ungrouped grouped) (hword : p.stop - p.start ≤ maxWord) :
    (f.node p).Formed Buffer.Sound ∧ (f.node p).length = p.stop - p.start := by
  have hfits := h.fits
  rw [Nat.sub_self] at hfits
  unfold Family.node
  split
  · -- a repetition with finished leaves is balanced
    refine Tree.formed_balanceWith (makes_makeRepeat _ _) (makes_makeRepeat _ _) (by omega) ?_
    split
    · obtain ⟨leaf, hclosed⟩ := h.close hword (Nat.le_refl _) (Nat.le_refl _)
      have hfits' := hclosed.fits
      rwa [Nat.sub_self] at hfits'
    · exact hfits
  · exact makes_makeBranch _ _ _ _ _ (by omega) hfits

end Family.Fitted

/-! ### Steps -/

/-- What one step takes: some of the newest records between the start of a parent and a position,
and the children for them in front of those before. -/
structure Taken (d : BuildPlan) (levels parentStart hi : Nat) (seg below : List Record)
    (cs : List (Nat × Tree)) (r : List (Nat × Tree) × Builder) (rest : List Record) (mid : Nat)
    (new : List (Nat × Tree)) : Prop where
  suffix : rest <:+ seg
  shorter : rest.length < seg.length
  reader : r.2.reader.Holds (rest ++ below)
  forest : d.Forest levels parentStart mid rest
  children_eq : r.1 = new ++ cs
  fits : Tree.Fits Buffer.Sound (mid - parentStart) (hi - parentStart) new

section Take

variable {d : BuildPlan} {levels parentStart hi : Nat} {seg below : List Record}
  {cs : List (Nat × Tree)} {b : Builder} {r : List (Nat × Tree) × Builder}

/-- A special record is taken on its own. -/
theorem takeMarker_spec (hb : b.reader.Holds (seg ++ below)) (hne : seg ≠ [])
    (hword : hi ≤ parentStart + maxWord) (hseg : d.Forest levels parentStart hi seg)
    (h : takeMarker d parentStart cs b = .ok r) :
    ∃ rest mid new, Taken d levels parentStart hi seg below cs r rest mid new := by
  cases seg with
  | nil => exact absurd rfl hne
  | cons c rest =>
      rw [List.cons_append] at hb
      obtain ⟨hrecord, hnext⟩ := hb.next
      have hsuffix : rest <:+ c :: rest := List.suffix_cons c rest
      unfold takeMarker at h
      simp only [hrecord] at h
      split at h
      · -- an older tree
        rename_i hreuse
        split at h
        · rename_i t ht
          obtain rfl := Except.ok.inj h
          rcases hseg.head_cases with ⟨hnote, -⟩ | ⟨-, hstart, htree, hrest⟩ |
            ⟨_, inner, outer, _, _, _, hsize, _⟩
          · exact absurd hreuse hnote.ne_reuse
          · obtain ⟨hformed, hstop⟩ := htree t ht
            have hlo := hrest.le
            have hpos : (c.startPos : Int) = c.start := Record.startPos_eq (by omega)
            have hplace : Tree.word (c.startPos - parentStart) = c.startPos - parentStart :=
              Tree.word_of_le (by omega)
            refine ⟨rest, c.startPos, [_], hsuffix, Nat.lt_succ_self _, hnext, ?_, rfl, ?_⟩
            · rw [hpos]
              exact hrest
            · refine .cons (Nat.le_of_eq hplace.symm) hformed (.nil ?_)
              simp only [hplace]
              omega
          · unfold Record.reuseSize at hreuse
            omega
        · cases h
      · split at h
        · obtain rfl := Except.ok.inj h
          refine ⟨rest, hi, [], hsuffix, Nat.lt_succ_self _, ?_, hseg.tail, rfl,
            .nil (Nat.le_refl _)⟩
          rw [reader_mark]
          exact hnext
        · cases h

/-- Nodes without children are taken as one buffer. -/
theorem takeFlat_spec (hb : b.reader.Holds (seg ++ below)) (hne : seg ≠ [])
    (hword : hi ≤ parentStart + maxWord) (hseg : d.Forest levels parentStart hi seg)
    (h : takeFlat d parentStart (4 * below.length) cs b = .ok r) :
    ∃ rest mid new, Taken d levels parentStart hi seg below cs r rest mid new := by
  have hstart := hseg.le
  have hnone : InLine hi hi [] := Int.le_refl _
  obtain ⟨taken, rest, mid, hcollected⟩ : ∃ taken rest mid,
      Collected d levels parentStart hi seg below []
        (collectF d (4 * below.length) b.reader.pos b none []) taken rest mid :=
    collectF_spec b.reader.pos hb hseg hnone
  unfold takeFlat at h
  simp only at h
  generalize collectF d (4 * below.length) b.reader.pos b none [] = found at h hcollected
  obtain ⟨b', nodes⟩ := found
  have hlength := hcollected.length_le
  obtain ⟨rfl, hreader, hforest, hline, -⟩ := hcollected
  simp only at h hreader hline hlength
  have hsuffix : rest <:+ taken ++ rest := List.suffix_append taken rest
  cases nodes with
  | nil =>
      have hpos := hreader.pos_eq
      rw [List.length_append] at hpos
      have hrest : d.Forest levels parentStart hi rest := hforest.mono hline
      simp only at h
      split at h
      · -- a special record stands in front
        have hne' : rest ≠ [] := by
          rintro rfl
          simp only [List.length_nil] at hpos
          omega
        obtain ⟨rest', mid', new, htaken⟩ := takeMarker_spec hreader hne' hword hrest h
        refine ⟨rest', mid', new, htaken.suffix.trans hsuffix, ?_, htaken.reader, htaken.forest,
          htaken.children_eq, htaken.fits⟩
        have := htaken.shorter
        rw [List.length_append]
        omega
      · obtain rfl := Except.ok.inj h
        obtain rfl : rest = [] := List.eq_nil_of_length_eq_zero (by omega)
        refine ⟨[], hi, [], List.nil_suffix, ?_, hreader, hrest, rfl, .nil (Nat.le_refl _)⟩
        exact List.length_pos_iff.2 hne
  | cons first nodes =>
      obtain ⟨last, hlast⟩ : ∃ last, (first :: nodes).getLast? = some last :=
        ⟨_, List.getLast?_eq_some_getLast (by simp)⟩
      simp only [hlast] at h
      obtain rfl := Except.ok.inj h
      have hle := hforest.le
      have hsound := sound_flat d.set hline (by omega) hlast
      obtain ⟨⟨hmid, hfirst, hnodes⟩, hend⟩ := hline.to_last hlast
      have hrange := hnodes.le
      have hpos : (first.startPos : Int) = first.start := Record.startPos_eq (by omega)
      have hstop : (last.stopPos : Int) = last.stop := Record.stopPos_eq (by omega)
      have hplace : Tree.word (first.startPos - parentStart) = first.startPos - parentStart :=
        Tree.word_of_le (by omega)
      refine ⟨rest, first.startPos, [_], hsuffix, ?_, hreader, ?_, rfl, ?_⟩
      · simp only [List.length_cons, List.length_append, List.length_nil] at hlength ⊢
        omega
      · rw [hpos]
        exact hforest.mono hmid
      · refine .cons (Nat.le_of_eq hplace.symm) hsound (.nil ?_)
        simp only [hplace, Tree.length, Buffer.make]
        omega

/-- A run is taken as one buffer. -/
theorem pack_taken {inRepeat : Int} {c : Record} {rest : List Record} {run : Run}
    (hb : b.reader.Holds (c :: rest ++ below)) (hword : hi ≤ parentStart + maxWord)
    (hseg : d.Forest levels parentStart c.stop (c :: rest)) (hstop : c.stop ≤ hi)
    (hrepeat : inRepeat = -1 ∨ d.repeatFrom ≤ inRepeat) (hfirst : c.id ≠ inRepeat)
    (h : findRun d b.reader (4 * below.length) inRepeat = some run) :
    ∃ rest' mid new, Taken d levels parentStart hi (c :: rest) below cs
      ((Tree.word (run.start - parentStart), (pack d b run c.stopPos).2) :: cs,
        (pack d b run c.stopPos).1) rest' mid new := by
  have hle := hseg.le
  have hpos : (c.stopPos : Int) = c.stop := Record.stopPos_eq (by omega)
  rw [← hpos] at hseg
  obtain ⟨taken, rest', mid, hne, hcovers⟩ :=
    findRun_covers (by omega) hrepeat hb hseg (by simpa using hfirst) h
  obtain ⟨buffer, hbuffer, hsound, hlength, hreader⟩ := pack_spec hb hcovers hne
  have hmid := hcovers.start_eq hne
  have hlo := hcovers.forest_rest.le
  have hend := hcovers.nested_taken.le
  have hplace : Tree.word (run.start - parentStart) = run.start - parentStart :=
    Tree.word_of_le (by omega)
  refine ⟨rest', run.start, [_], ⟨taken, hcovers.split.symm⟩, ?_, hreader, ?_, rfl, ?_⟩
  · have hcount := congrArg List.length hcovers.split
    have := List.length_pos_iff.2 hne
    rw [List.length_append] at hcount
    omega
  · rw [hmid]
    exact hcovers.forest_rest
  · rw [hbuffer]
    refine .cons (Nat.le_of_eq hplace.symm) hsound (.nil ?_)
    simp only [hplace, Tree.length, hlength]
    omega

/-- A node is taken with its children. -/
theorem node_taken {c : Record} {inner outer : List Record} {t : Tree} {b' : Builder}
    (hb : b'.reader.Holds (outer ++ below)) (hword : hi ≤ parentStart + maxWord)
    (hstop : c.stop ≤ hi) (hrange : c.start ≤ c.stop)
    (houter : d.Forest levels parentStart c.start outer)
    (ht : t.Formed Buffer.Sound ∧ t.length = c.stopPos - c.startPos) :
    Taken d levels parentStart hi (c :: (inner ++ outer)) below cs
      ((Tree.word (c.startPos - parentStart), t) :: cs, b') outer c.startPos
      [(Tree.word (c.startPos - parentStart), t)] := by
  have hle := houter.le
  have hpos : (c.startPos : Int) = c.start := Record.startPos_eq (by omega)
  have hpos' : (c.stopPos : Int) = c.stop := Record.stopPos_eq (by omega)
  have hplace : Tree.word (c.startPos - parentStart) = c.startPos - parentStart :=
    Tree.word_of_le (by omega)
  refine ⟨(List.suffix_append inner outer).trans (List.suffix_cons c _), ?_, hb, ?_, rfl, ?_⟩
  · simp only [List.length_cons, List.length_append]
    omega
  · rw [hpos]
    exact houter
  · refine .cons (Nat.le_of_eq hplace.symm) ht.1 (.nil ?_)
    simp only [hplace, ht.2]
    omega

theorem repeat_cases (d : BuildPlan) (c : Record) :
    (if d.repeatFrom ≤ c.id then c.id else -1) = -1 ∨
      d.repeatFrom ≤ (if d.repeatFrom ≤ c.id then c.id else -1) := by
  split
  · rename_i h
    exact Or.inr h
  · exact Or.inl rfl

/-- What taking a node with some fuel ensures. -/
def TakesNode (d : BuildPlan) (fuel : Nat) : Prop :=
  ∀ {levels parentStart hi depth : Nat} {inRepeat : Int} {seg below : List Record}
      {cs : List (Nat × Tree)} {b : Builder} {r : List (Nat × Tree) × Builder},
    b.reader.Holds (seg ++ below) → seg ≠ [] → hi ≤ parentStart + maxWord →
    d.Forest levels parentStart hi seg → 2 * seg.length ≤ fuel →
    inRepeat = -1 ∨ d.repeatFrom ≤ inRepeat →
    (∀ c ∈ seg.head?, 0 ≤ inRepeat → 0 ≤ c.size → c.id ≠ inRepeat) →
    takeNodeF d fuel parentStart (4 * below.length) inRepeat depth cs b = .ok r →
      ∃ rest mid new, Taken d levels parentStart hi seg below cs r rest mid new

/-- What taking the children of a parent with some fuel ensures. -/
def TakesChildren (d : BuildPlan) (fuel : Nat) : Prop :=
  ∀ {levels : Nat} {p : Parent} {hi : Nat} {seg below : List Record} {f : Family} {b : Builder}
      {ungrouped grouped : List (Nat × Tree)} {r : Family × Builder},
    b.reader.Holds (seg ++ below) → p.stop ≤ p.start + maxWord → d.Forest levels p.start hi seg →
    2 * seg.length + 1 ≤ fuel → p.inRepeat = -1 ∨ d.repeatFrom ≤ p.inRepeat →
    f.Fitted p hi ungrouped grouped → takeChildrenF d fuel p (4 * below.length) f b = .ok r →
      r.2.reader.Holds below ∧ ∃ ungrouped grouped, r.1.Fitted p p.start ungrouped grouped

theorem takeNodeF_step {fuel : Nat} (hchildren : TakesChildren d fuel) :
    TakesNode d (fuel + 1) := by
  intro levels parentStart hi depth inRepeat seg below cs b r hb hne hword hseg hfuel hrepeat hfirst
    h
  cases seg with
  | nil => exact absurd rfl hne
  | cons c rest =>
      obtain ⟨hrecord, hnext⟩ := hb.next
      have hpos := hb.pos_eq
      simp only [List.cons_append, List.length_cons, List.length_append] at hpos hfuel
      rw [takeNodeF] at h
      simp only [hrecord] at h
      split at h
      · exact takeMarker_spec hb hne hword hseg h
      · split at h
        · cases h
        · obtain ⟨inner, outer, rfl, hid, hsize, hstop, hinner, houter⟩ :=
            hseg.head_node (by omega)
          have hlo := houter.le
          have hrange := hinner.le
          obtain ⟨ty, _, h⟩ := bind_ok h
          split at h
          · -- a run of nodes that fit into one buffer
            rename_i run hrun
            obtain rfl := Except.ok.inj h
            have hfound : findRun d b.reader (4 * below.length) inRepeat = some run := by
              split at hrun
              · exact hrun
              · cases hrun
            refine pack_taken hb hword ?_ hstop hrepeat ?_ hfound
            · have hnode : d.Forest levels c.start c.stop (c :: inner) := hseg.head_tree hsize
              exact hnode.append houter
            · intro heq
              exact hfirst c rfl (by omega) (by omega) heq
          · -- a node with its children
            obtain ⟨r', htake, h⟩ := bind_ok h
            obtain rfl := Except.ok.inj h
            have hstartPos : (c.startPos : Int) = c.start := Record.startPos_eq (by omega)
            have hstopPos : (c.stopPos : Int) = c.stop := Record.stopPos_eq (by omega)
            have hslots : b.reader.pos - c.size.toNat = 4 * (outer ++ below).length := by
              simp only [List.length_append] at hpos ⊢
              omega
            rw [hslots] at htake
            rw [List.append_eq, List.append_assoc] at hnext
            simp only [List.length_append] at hfuel
            obtain ⟨hreader, ungrouped, grouped, hfitted⟩ := hchildren hnext
              (by simp only; omega) (by simp only [hstartPos]; exact hstopPos ▸ hinner)
              (by omega) (repeat_cases d c) (.start (by simp only; omega)) htake
            exact ⟨_, _, _, node_taken hreader hword hstop hrange houter
              (hfitted.node (by simp only; omega))⟩

/-- The children after some that were taken. -/
theorem TakesChildren.goOn {fuel mid : Nat} {p : Parent} {rest : List Record}
    {ungrouped grouped new : List (Nat × Tree)} {f : Family} {taken : List (Nat × Tree) × Builder}
    {r : Family × Builder} (hchildren : TakesChildren d fuel)
    (htaken : Taken d levels p.start hi seg below f.children taken rest mid new)
    (hword : p.stop ≤ p.start + maxWord)
    (hfuel : 2 * seg.length ≤ fuel) (hrepeat : p.inRepeat = -1 ∨ d.repeatFrom ≤ p.inRepeat)
    (hfitted : f.Fitted p hi ungrouped grouped)
    (h : takeChildrenF d fuel p (4 * below.length) { f with children := taken.1 } taken.2 = .ok r) :
    r.2.reader.Holds below ∧ ∃ ungrouped grouped, r.1.Fitted p p.start ungrouped grouped := by
  have hshorter := htaken.shorter
  have hmid := htaken.forest.le
  have hfits := htaken.fits.le
  have hstart := hfitted.start_le
  rw [htaken.children_eq] at h
  exact hchildren htaken.reader hword htaken.forest (by omega) hrepeat
    (hfitted.addChildren (by omega) (by omega) htaken.fits) h

theorem takeChildrenF_step {fuel : Nat} (hnode : TakesNode d fuel)
    (hchildren : TakesChildren d fuel) : TakesChildren d (fuel + 1) := by
  intro levels p hi seg below f b ungrouped grouped r hb hword hseg hfuel hrepeat hfitted h
  have hpos := hb.pos_eq
  have hstart := hseg.le
  have hhi : hi ≤ p.start + maxWord :=
    Nat.le_trans hfitted.hi_le (Nat.le_trans hfitted.stop_le hword)
  rw [takeChildrenF] at h
  cases seg with
  | nil =>
      rw [List.nil_append] at hb hpos
      simp only [hpos, Nat.le_refl, if_true] at h
      obtain rfl := Except.ok.inj h
      exact ⟨hb, _, _, hfitted.mono (Nat.le_refl _) hfitted.start_le⟩
  | cons c rest =>
      rw [List.cons_append] at hb hpos
      obtain ⟨hrecord, hnext⟩ := hb.next
      simp only [List.length_cons, List.length_append] at hpos hfuel
      simp only [hrecord] at h
      rw [if_neg (by omega)] at h
      split at h
      · -- a node of the repetition itself may finish a leaf
        rename_i hsame
        simp only [Bool.and_eq_true, decide_eq_true_eq] at hsame
        obtain ⟨inner, outer, rfl, hid, hsize, hstop, hinner, houter⟩ :=
          hseg.head_node (by omega)
        have hlo := houter.le
        have hrange := hinner.le
        have hstopPos : (c.stopPos : Int) = c.stop := Record.stopPos_eq (by omega)
        have hrest : d.Forest levels p.start c.stopPos (inner ++ outer) := by
          rw [hstopPos]
          exact hinner.append houter
        have hfitted' : f.Fitted p c.stopPos ungrouped grouped :=
          hfitted.mono (by omega) (by omega)
        split at h
        · obtain ⟨leaf, hclosed⟩ := hfitted'.close (by omega) (by omega) (Nat.le_refl _)
          exact hchildren hnext hword hrest (by omega) hrepeat hclosed h
        · exact hchildren hnext hword hrest (by omega) hrepeat hfitted' h
      · rename_i hother
        have hroom : 2 * (c :: rest).length ≤ fuel := by
          rw [List.length_cons]
          omega
        split at h
        · -- too deep for more branches
          obtain ⟨taken, htake, h⟩ := bind_ok h
          obtain ⟨rest', mid, new, htaken⟩ := takeFlat_spec hb (by simp) hhi hseg htake
          exact hchildren.goOn htaken hword hroom hrepeat hfitted h
        · obtain ⟨taken, htake, h⟩ := bind_ok h
          have hfirst : ∀ x ∈ (c :: rest).head?, 0 ≤ p.inRepeat → 0 ≤ x.size →
              x.id ≠ p.inRepeat := by
            intro x hx hin hsize heq
            obtain rfl : c = x := by simpa using hx
            exact hother (by simp [hin, hsize, heq])
          obtain ⟨rest', mid, new, htaken⟩ := hnode hb (by simp) hhi hseg hroom hrepeat hfirst htake
          exact hchildren.goOn htaken hword hroom hrepeat hfitted h

/-- **Taking a node, and taking the children of one.** -/
theorem take_spec (d : BuildPlan) (fuel : Nat) : TakesNode d fuel ∧ TakesChildren d fuel := by
  induction fuel with
  | zero =>
      constructor
      · intro _ _ _ _ _ seg _ _ _ _ _ hne _ _ hfuel
        exact absurd (List.eq_nil_of_length_eq_zero (by omega)) hne
      · intro _ _ _ _ _ _ _ _ _ _ _ _ _ hfuel
        omega
  | succ fuel ih => exact ⟨takeNodeF_step ih.2, takeChildrenF_step ih.1 ih.2⟩

end Take

/-- All nodes down to the first slot. -/
theorem takeAllF_spec {d : BuildPlan} {below : List Record}
    (hstart : d.bufferStart = 4 * below.length) (fuel : Nat) {levels hi len : Nat}
    {seg : List Record} {cs cs' : List (Nat × Tree)} {b : Builder}
    (hb : b.reader.Holds (seg ++ below)) (hword : hi ≤ d.start + maxWord)
    (hseg : d.Forest levels d.start hi seg)
    (hcs : Tree.Fits Buffer.Sound (hi - d.start) len cs) (h : takeAllF d fuel cs b = .ok cs') :
    Tree.Fits Buffer.Sound 0 len cs' := by
  induction fuel generalizing hi seg cs b with
  | zero =>
      obtain rfl := Except.ok.inj h
      exact hcs.mono_left (Nat.zero_le _)
  | succ fuel ih =>
      rw [takeAllF, hstart] at h
      split at h
      · obtain rfl := Except.ok.inj h
        exact hcs.mono_left (Nat.zero_le _)
      · obtain ⟨r, htake, h⟩ := bind_ok h
        have hpos := hb.pos_eq
        rw [List.length_append] at hpos
        have hne : seg ≠ [] := by
          rintro rfl
          simp only [List.length_nil] at hpos
          omega
        obtain ⟨rest, mid, new, htaken⟩ := (take_spec d _).1 hb hne hword hseg (by omega)
          (Or.inl rfl) (by omega) htake
        have hmid := htaken.forest.le
        have hle := hseg.le
        have hfits := htaken.fits.le
        refine ih htaken.reader (by omega) htaken.forest ?_ h
        rw [htaken.children_eq]
        exact htaken.fits.append hcs

end Builder

/-- **The children of a tree that is built from a forest of records** lie where the forest does. -/
theorem Tree.buildFrom_fits {d : BuildPlan} {r : Reader} {seg below : List Record} {levels hi : Nat}
    {t : Tree} (hstart : d.bufferStart = 4 * below.length) (hr : r.Holds (seg ++ below))
    (hword : hi ≤ d.start + maxWord) (hseg : d.Forest levels d.start hi seg)
    (h : Tree.buildFrom d r = .ok t) :
    ∃ ty cs, t = .make ty cs (d.length.getD (rootLength cs)) [] ∧
      Builder.takeAllF d (r.pos + 1) [] { reader := r } = .ok cs ∧
      Tree.Fits Buffer.Sound 0 (hi - d.start) cs := by
  obtain ⟨ty, cs, -, htake, rfl⟩ := Tree.exists_of_buildFrom h
  exact ⟨ty, cs, rfl, htake, Builder.takeAllF_spec (b := { reader := r }) hstart _ hr hword hseg
    (.nil (Nat.le_refl _)) htake⟩

/-- **A tree that is built from a forest of records is formed.** -/
theorem Tree.formed_buildFrom {d : BuildPlan} {r : Reader} {seg : List Record} {hi : Nat} {t : Tree}
    (hstart : d.bufferStart = 0) (hlength : d.length = some (hi - d.start)) (hr : r.Holds seg)
    (hword : hi ≤ maxWord) (hseg : Nested Record.IsMark d.start hi seg)
    (h : Tree.buildFrom d r = .ok t) : t.Formed Buffer.Sound := by
  have hr' : r.Holds (seg ++ []) := by rwa [List.append_nil]
  obtain ⟨ty, cs, rfl, -, hcs⟩ := Tree.buildFrom_fits hstart hr' (by omega) (hseg.forest d) h
  rw [hlength]
  exact (formed_make _ _ (Nat.le_trans (Nat.sub_le _ _) hword) hcs).1

end IncrementalLR
