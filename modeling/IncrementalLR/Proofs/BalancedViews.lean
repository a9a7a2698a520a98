/-
**What cannot be seen of a tree.**

Groups of children, leaves of repetitions and the nodes that balancing puts above them are
anonymous, so that navigation looks through them.  What is seen of a balanced node is what is seen
of the children that it was made from.

Main definitions:

* `Tree.Unfolds` — a constructor of nodes that are looked through;
* `Tree.GroupsUnseen`, `Tree.DividesUnseen` — the same for grouping and dividing with some fuel.

Main results:

* `Tree.visible_balanceWith` — balancing cannot be seen;
* `unfolds_makeBranch`, `unfolds_makeRepeat` — nor can the nodes of repetitions.
-/

import IncrementalLR.Proofs.Building
import IncrementalLR.Proofs.Showing

set_option relaxedAutoImplicit false
set_option autoImplicit false

namespace IncrementalLR

namespace Tree

/-! ### Children -/

theorem drawnAllFrom_append {set : NodeSet} {cs cs' : List (Nat × Tree)} :
    DrawnAllFrom set (cs ++ cs') ↔ DrawnAllFrom set cs ∧ DrawnAllFrom set cs' := by
  induction cs with
  | nil => simp [DrawnAllFrom]
  | cons c cs ih => simp [DrawnAllFrom, ih, and_assoc]

theorem drawnAllFrom_map {set : NodeSet} {cs : List (Nat × Tree)} (f : Nat → Nat)
    (h : DrawnAllFrom set cs) : DrawnAllFrom set (cs.map fun c => (f c.1, c.2)) := by
  induction cs with
  | nil => trivial
  | cons c cs ih => exact ⟨h.1, ih h.2⟩

mutual

/-- A tree whose branches are formed is well formed if its buffers are. -/
theorem Formed.wellFormed {P : Buffer → Prop} {set : NodeSet} : ∀ {t : Tree}, t.Formed P →
    t.DrawnFrom set → t.WellFormed
  | branch _ _ _ _ _, h, hdrawn => ⟨h.1, FormedAll.wellFormed h.2 hdrawn.2⟩
  | packed _, _, hdrawn => hdrawn.2

theorem FormedAll.wellFormed {P : Buffer → Prop} {set : NodeSet} :
    ∀ {cs : List (Nat × Tree)}, FormedAll P cs → DrawnAllFrom set cs →
      FormedAll Buffer.WellFormed cs
  | [], _, _ => trivial
  | _ :: _, h, hdrawn =>
      ⟨Formed.wellFormed h.1 hdrawn.1, FormedAll.wellFormed h.2 hdrawn.2⟩

end

/-- Children that are counted from another place show the same from there. -/
theorem visibleAll_move {cs : List (Nat × Tree)} {P : Buffer → Prop} {lo hi : Nat}
    (f : Nat → Nat) (base base' : Nat) (h : Fits P lo hi cs)
    (hf : ∀ pos, lo ≤ pos → pos ≤ hi → base' + f pos = base + pos) :
    visibleAll (cs.map fun c => (f c.1, c.2)) base' = visibleAll cs base := by
  induction cs generalizing lo with
  | nil => rfl
  | cons c cs ih =>
      obtain ⟨hlo, _, hrest⟩ := h.of_cons
      have hle := hrest.le
      rw [List.map_cons, visibleAll, visibleAll, hf c.1 hlo (by omega),
        ih hrest fun pos hpos => hf pos (by omega)]

/-! ### Balancing -/

/-- A branch that counts for more than one node is looked through. -/
theorem visible_of_groupSize {set : NodeSet} {ty : NodeType} {t : Tree}
    (hty : set.get? ty.id = some ty) (ht : t.DrawnFrom set) (hbranch : t.isBranch = true)
    (hsize : 1 < t.groupSize ty) (start : Nat) :
    t.visible start = visibleAll t.children start := by
  cases t with
  | packed b => cases hbranch
  | branch stamp ty' cs len ps =>
      rw [groupSize] at hsize
      split at hsize
      · rename_i hsame
        rw [Bool.and_eq_true, NodeType.same, Bool.and_eq_true, decide_eq_true_eq,
          decide_eq_true_eq] at hsame
        have heq := ht.1
        rw [hsame.2.2, hty] at heq
        obtain rfl := Option.some.inj heq
        rw [visible, if_pos hsame.1, children]
      · omega

/-- A constructor of nodes that are looked through. -/
def Unfolds (P : Buffer → Prop) (set : NodeSet) (make : List (Nat × Tree) → Nat → Tree) : Prop :=
  ∀ (cs : List (Nat × Tree)) (length start : Nat), Fits P 0 length cs → DrawnAllFrom set cs →
    (make cs length).visible start = visibleAll cs start ∧ (make cs length).DrawnFrom set

section Grouping

variable {P : Buffer → Prop} {set : NodeSet} {ty : NodeType}
  {inner : List (Nat × Tree) → Nat → Tree} {fuel : Nat}

/-- Grouping with some fuel cannot be seen. -/
def GroupsUnseen (P : Buffer → Prop) (set : NodeSet) (ty : NodeType)
    (inner : List (Nat × Tree) → Nat → Tree) (fuel : Nat) : Prop :=
  ∀ (top : List (Nat × Tree) → Nat → Tree) (cs : List (Nat × Tree)) (start length base : Nat),
    Unfolds P set top → 3 * weightAll cs + 1 ≤ fuel → length ≤ maxWord →
    Fits P start (start + length) cs → DrawnAllFrom set cs →
      (groupF ty inner fuel top cs start length).visible (base + start) = visibleAll cs base ∧
        (groupF ty inner fuel top cs start length).DrawnFrom set

/-- Dividing with some fuel cannot be seen. -/
def DividesUnseen (P : Buffer → Prop) (set : NodeSet) (ty : NodeType)
    (inner : List (Nat × Tree) → Nat → Tree) (fuel : Nat) : Prop :=
  ∀ (limit : Nat) (cs : List (Nat × Tree)) (offset start lo hi base : Nat),
    3 * weightAll cs + 2 ≤ fuel ∨ (3 * weightAll cs ≤ fuel ∧ limit ≤ totalSize ty cs) →
    (cs ≠ [] → 1 ≤ limit) → start ≤ lo + offset → hi + offset - start ≤ maxWord → Fits P lo hi cs →
    DrawnAllFrom set cs →
      visibleAll (divideF ty inner fuel limit cs offset start) (base + start) =
          visibleAll cs (base + offset) ∧
        DrawnAllFrom set (divideF ty inner fuel limit cs offset start)

theorem groupF_unseen (hinner : Makes P inner) (hdivides : DividesUnseen P set ty inner fuel) :
    GroupsUnseen P set ty inner (fuel + 1) := by
  intro top cs start length base htop hfuel hword h hdrawn
  have hlimit : cs ≠ [] → 1 ≤ groupLimit (totalSize ty cs) := by
    intro hne
    obtain ⟨c, rest, rfl⟩ := List.exists_cons_of_ne_nil hne
    exact groupLimit_pos ty c rest
  have hfits := (group_divide hinner fuel).2 (groupLimit (totalSize ty cs)) cs 0 start start
    (start + length) (Or.inr ⟨by omega, groupLimit_le _⟩) (by omega) (by omega) h
  rw [show start + 0 - start = 0 by omega, show start + length + 0 - start = length by omega]
    at hfits
  obtain ⟨hshown, hdrawn'⟩ := hdivides (groupLimit (totalSize ty cs)) cs 0 start start
    (start + length) base (Or.inr ⟨by omega, groupLimit_le _⟩) hlimit (by omega) (by omega) h hdrawn
  obtain ⟨hvisible, hnode⟩ := htop _ length (base + start) hfits hdrawn'
  rw [groupF]
  exact ⟨hvisible.trans hshown, hnode⟩

theorem divideF_unseen (hunfolds : Unfolds P set inner) (hty : set.get? ty.id = some ty)
    (hgroups : GroupsUnseen P set ty inner fuel) (hdivides : DividesUnseen P set ty inner fuel) :
    DividesUnseen P set ty inner (fuel + 1) := by
  intro limit cs offset start lo hi base hfuel hlimit hstart hword h hdrawn
  cases cs with
  | nil =>
      rw [divideF]
      · exact ⟨rfl, trivial⟩
      · simp
  | cons c rest =>
      have hone : 1 ≤ limit := hlimit (by simp)
      obtain ⟨hlo, hc, hrest⟩ := h.of_cons
      have hsmall := weight_group_lt ty limit c rest
      have hsplit := growGroup_append ty limit (c.2.groupSize ty) rest
      have hgroup := growGroup_size ty limit (c.2.groupSize ty) rest
      rw [divideF]
      generalize growGroup ty limit (c.2.groupSize ty) rest = grown at hsmall hsplit hgroup ⊢
      obtain ⟨taken, size, after⟩ := grown
      simp only at hsmall hsplit hgroup ⊢
      subst hsplit
      obtain ⟨mid, htaken, hafter⟩ := hrest.split
      have hmid := htaken.le
      have hend := hafter.le
      obtain ⟨hdrawnC, hdrawnRest⟩ := hdrawn
      obtain ⟨hdrawnTaken, hdrawnAfter⟩ := drawnAllFrom_append.1 hdrawnRest
      have hweight : weightAll (c :: (taken ++ after)) =
          c.2.weight + weightAll taken + weightAll after := by
        rw [weightAll, weightAll_append]
        omega
      have hpos := c.2.weight_pos
      obtain ⟨hdone, hdrawnDone⟩ := hdivides limit after offset start mid hi base
        (Or.inl (by omega)) (fun _ => hone) (by omega) (by omega) hafter hdrawnAfter
      have hplace : word (c.1 + offset - start) = c.1 + offset - start := word_of_le (by omega)
      have hbase : base + start + (c.1 + offset - start) = base + offset + c.1 := by omega
      cases hlast : taken.getLast? with
      | none =>
          obtain rfl : taken = [] := List.getLast?_eq_none_iff.1 hlast
          simp only [totalSize, Nat.add_zero] at hgroup
          subst hgroup
          simp only [List.nil_append]
          split
          · -- the child gives way to its children
            rename_i hopen
            rw [Bool.and_eq_true, decide_eq_true_eq] at hopen
            have hchildren := weight_children hopen.2
            have hdrawnChildren : DrawnAllFrom set c.2.children := by
              obtain ⟨pos, t⟩ := c
              cases t with
              | packed b => cases hopen.2
              | branch stamp ty' cs len ps => exact hdrawnC.2
            obtain ⟨hshown, hdrawn'⟩ := hdivides limit c.2.children (c.1 + offset) start 0
              c.2.length base (Or.inl (by omega)) (fun _ => hone) (by omega) (by omega)
              (hc.fits_children hopen.2) hdrawnChildren
            refine ⟨?_, drawnAllFrom_append.2 ⟨hdrawn', hdrawnDone⟩⟩
            rw [visibleAll_append, hshown, hdone, visibleAll,
              visible_of_groupSize hty hdrawnC hopen.2 (by omega)]
            congr 2
            omega
          · refine ⟨?_, hdrawnC, hdrawnDone⟩
            rw [visibleAll, visibleAll, hplace, hbase, hdone]
      | some last =>
          -- the child starts a group
          have hne : taken ≠ [] := by
            rintro rfl
            cases hlast
          have hfuel' : 3 * weightAll (c :: taken) + 1 ≤ fuel := by
            rcases hfuel with hfuel | ⟨hfuel, hlimit⟩
            · simp only [weightAll]
              omega
            · have := hsmall hlimit hne
              omega
          have hcons : Fits P c.1 mid (c :: taken) := .cons (Nat.le_refl _) hc htaken
          have hlast' : (c :: taken).getLast? = some last := by
            rw [List.getLast?_cons, hlast]
            rfl
          obtain ⟨hfits, hstop⟩ := hcons.to_last hlast'
          have hle := hfits.le
          obtain ⟨hshown, hnode⟩ := hgroups inner (c :: taken) c.1
            (last.1 + last.2.length - c.1) (base + offset) hunfolds hfuel' (by omega)
            (by rwa [show c.1 + (last.1 + last.2.length - c.1) = last.1 + last.2.length by omega])
            ⟨hdrawnC, hdrawnTaken⟩
          refine ⟨?_, hnode, hdrawnDone⟩
          rw [visibleAll, hplace, hbase, hshown, hdone, ← visibleAll_append, List.cons_append]

/-- Grouping and dividing cannot be seen. -/
theorem group_divide_unseen (hinner : Makes P inner) (hunfolds : Unfolds P set inner)
    (hty : set.get? ty.id = some ty) (fuel : Nat) :
    GroupsUnseen P set ty inner fuel ∧ DividesUnseen P set ty inner fuel := by
  induction fuel with
  | zero =>
      constructor
      · intro _ _ _ _ _ _ hfuel
        omega
      · intro limit cs offset start lo hi base hfuel _ _ _ _ _
        cases cs with
        | nil =>
            rw [divideF]
            exact ⟨rfl, trivial⟩
        | cons c rest =>
            have := weightAll_cons_pos c rest
            omega
  | succ fuel ih =>
      exact ⟨groupF_unseen hinner ih.2, divideF_unseen hunfolds hty ih.1 ih.2⟩

end Grouping

/-- **Balancing cannot be seen.** -/
theorem visible_balanceWith {P : Buffer → Prop} {set : NodeSet} {ty : NodeType}
    {top inner : List (Nat × Tree) → Nat → Tree} (hinner : Makes P inner)
    (htop : Unfolds P set top) (hunfolds : Unfolds P set inner) (hty : set.get? ty.id = some ty)
    {cs : List (Nat × Tree)} {length : Nat} (hword : length ≤ maxWord) (h : Fits P 0 length cs)
    (hdrawn : DrawnAllFrom set cs) (base : Nat) :
    (balanceWith ty top inner cs length).visible base = visibleAll cs base ∧
      (balanceWith ty top inner cs length).DrawnFrom set :=
  (group_divide_unseen hinner hunfolds hty _).1 top cs 0 length base htop (Nat.le_refl _) hword
    (by rwa [Nat.zero_add]) hdrawn

end Tree

/-! ### New nodes -/

section Make

variable {P : Buffer → Prop} {set : NodeSet} {ty : NodeType}

theorem unfolds_makeBranch (hty : set.get? ty.id = some ty) (hanonymous : ty.isAnonymous = true)
    (lookAhead contextHash : Nat) :
    Tree.Unfolds P set fun cs length => makeBranch ty cs length lookAhead contextHash := by
  intro cs length start _ hdrawn
  refine ⟨?_, hty, hdrawn⟩
  simp only [makeBranch, Tree.make, Tree.visible, hanonymous, if_true]

theorem unfolds_makeRepeat (hty : set.get? ty.id = some ty) (hanonymous : ty.isAnonymous = true)
    (contextHash : Nat) : Tree.Unfolds P set (makeRepeat ty contextHash) := by
  intro cs length start h hdrawn
  rcases makeRepeat_cases ty contextHash cs length with ⟨lookAhead, heq⟩ | ⟨pos, t, rfl, hlen, heq⟩
  · rw [heq]
    exact unfolds_makeBranch hty hanonymous lookAhead contextHash cs length start h hdrawn
  · -- the only child is as long as the node, so it lies at its start
    obtain ⟨_, _, hnil⟩ := h.of_cons
    have hend := hnil.le
    simp only at hend
    obtain rfl : pos = 0 := by omega
    rw [heq]
    exact ⟨by simp [Tree.visibleAll], hdrawn.1⟩

end Make

end IncrementalLR
