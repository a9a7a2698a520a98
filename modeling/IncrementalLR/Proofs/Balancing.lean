/-
**Balancing keeps trees formed.**

Groups of neighbouring children are put into nodes of their own, at the place of the first of them
and as long as all of them together; a large child of the balance type gives way to its children.
Either way the children stay where they are in the text.

Grouping goes on inside the groups.  It ends because a group that is formed from all children at
once stays below their total size, so that it leaves some of them out; the fuel is three times the
weight of the children for that reason.

Main definitions:

* `Tree.Makes` — a constructor of nodes that keeps children where they are;
* `Tree.Groups`, `Tree.Divides` — the same for grouping and dividing with some fuel.

Main results:

* `Tree.formed_balanceWith` — a balanced node is formed and as long as it should be.
-/

import IncrementalLR.Proofs.Formed
import IncrementalLR.Tree.Balance

set_option relaxedAutoImplicit false
set_option autoImplicit false

namespace IncrementalLR

namespace Tree

/-! ### Weights -/

theorem weightAll_append (cs cs' : List (Nat × Tree)) :
    weightAll (cs ++ cs') = weightAll cs + weightAll cs' := by
  induction cs with
  | nil => simp [weightAll]
  | cons c rest ih =>
      simp only [List.cons_append, weightAll, ih]
      omega

theorem weight_children {t : Tree} (h : t.isBranch = true) :
    t.weight = 1 + weightAll t.children := by
  cases t with
  | branch stamp ty cs len ps => rw [weight, children]
  | packed b => cases h

theorem weightAll_cons_pos (c : Nat × Tree) (cs : List (Nat × Tree)) : 0 < weightAll (c :: cs) := by
  have := c.2.weight_pos
  simp only [weightAll]
  omega

theorem totalSize_append (ty : NodeType) (cs cs' : List (Nat × Tree)) :
    totalSize ty (cs ++ cs') = totalSize ty cs + totalSize ty cs' := by
  induction cs with
  | nil => simp [totalSize]
  | cons c rest ih =>
      simp only [List.cons_append, totalSize, ih]
      omega

theorem groupLimit_le (total : Nat) : groupLimit total ≤ total := by
  unfold groupLimit
  omega

theorem groupSize_pos (ty : NodeType) (t : Tree) : 1 ≤ t.groupSize ty := by
  cases t with
  | packed b => simp [groupSize]
  | branch stamp ty' cs len ps =>
      rw [groupSize]
      split <;> omega

theorem groupLimit_pos (ty : NodeType) (c : Nat × Tree) (cs : List (Nat × Tree)) :
    1 ≤ groupLimit (totalSize ty (c :: cs)) := by
  have hpos := groupSize_pos ty c.2
  rw [totalSize, groupLimit]
  omega

/-! ### Groups -/

theorem growGroup_append (ty : NodeType) (limit size : Nat) (cs : List (Nat × Tree)) :
    (growGroup ty limit size cs).1 ++ (growGroup ty limit size cs).2.2 = cs := by
  induction cs generalizing size with
  | nil => rfl
  | cons c rest ih =>
      unfold growGroup
      split
      · rfl
      · simp only [List.cons_append, ih]

theorem growGroup_size (ty : NodeType) (limit size : Nat) (cs : List (Nat × Tree)) :
    (growGroup ty limit size cs).2.1 = size + totalSize ty (growGroup ty limit size cs).1 := by
  induction cs generalizing size with
  | nil => rfl
  | cons c rest ih =>
      unfold growGroup
      split
      · rfl
      · simp only [totalSize, ih]
        omega

/-- A group of more than one child stays below the limit. -/
theorem growGroup_lt (ty : NodeType) (limit size : Nat) (cs : List (Nat × Tree))
    (h : (growGroup ty limit size cs).1 ≠ []) : (growGroup ty limit size cs).2.1 < limit := by
  induction cs generalizing size with
  | nil => exact absurd rfl h
  | cons c rest ih =>
      unfold growGroup at h ⊢
      split at h
      · exact absurd rfl h
      · rename_i hlimit
        rw [if_neg hlimit]
        simp only
        by_cases hmore : (growGroup ty limit (size + c.2.groupSize ty) rest).1 = []
        · rw [growGroup_size, hmore]
          simp only [totalSize]
          omega
        · exact ih _ hmore

/-- A group below the total size leaves some children out. -/
theorem weight_group_lt (ty : NodeType) (limit : Nat) (c : Nat × Tree) (rest : List (Nat × Tree))
    (hlimit : limit ≤ totalSize ty (c :: rest))
    (h : (growGroup ty limit (c.2.groupSize ty) rest).1 ≠ []) :
    weightAll (c :: (growGroup ty limit (c.2.groupSize ty) rest).1) < weightAll (c :: rest) := by
  have hsplit := growGroup_append ty limit (c.2.groupSize ty) rest
  have hsize := growGroup_size ty limit (c.2.groupSize ty) rest
  have hlt := growGroup_lt ty limit (c.2.groupSize ty) rest h
  have htotal := congrArg (totalSize ty) hsplit
  have hweight := congrArg weightAll hsplit
  rw [totalSize_append] at htotal
  rw [weightAll_append] at hweight
  simp only [totalSize] at hlimit
  simp only [weightAll]
  cases hafter : (growGroup ty limit (c.2.groupSize ty) rest).2.2 with
  | nil =>
      rw [hafter] at htotal
      simp only [totalSize] at htotal
      omega
  | cons d after =>
      rw [hafter] at hweight
      have := weightAll_cons_pos d after
      omega

/-! ### Positions -/

theorem word_of_le {n : Nat} (h : n ≤ maxWord) : word n = n :=
  Nat.mod_eq_of_lt (Nat.lt_of_le_of_lt h (by decide))

theorem Formed.fits_children {P : Buffer → Prop} {t : Tree} (h : t.Formed P)
    (hbranch : t.isBranch = true) : Fits P 0 t.length t.children := by
  cases t with
  | branch stamp ty cs len ps => exact ⟨h.1, h.2⟩
  | packed b => cases hbranch

/-- Children end where the last of them ends. -/
theorem Fits.to_last {P : Buffer → Prop} {lo hi : Nat} {cs : List (Nat × Tree)} {last : Nat × Tree}
    (h : Fits P lo hi cs) (hlast : cs.getLast? = some last) :
    Fits P lo (last.1 + last.2.length) cs ∧ last.1 + last.2.length ≤ hi := by
  obtain ⟨before, rfl⟩ := List.getLast?_eq_some_iff.1 hlast
  obtain ⟨mid, hbefore, hone⟩ := h.split
  obtain ⟨hle, hformed, hnil⟩ := hone.of_cons
  refine ⟨hbefore.append (.cons hle hformed (.nil (Nat.le_refl _))), hnil.le⟩

/-- A constructor of nodes from their children and length. -/
def Makes (P : Buffer → Prop) (make : List (Nat × Tree) → Nat → Tree) : Prop :=
  ∀ (cs : List (Nat × Tree)) (length : Nat), length ≤ maxWord → Fits P 0 length cs →
    (make cs length).Formed P ∧ (make cs length).length = length

section Grouping

variable {P : Buffer → Prop} {ty : NodeType} {inner : List (Nat × Tree) → Nat → Tree} {fuel : Nat}

/-- Grouping with some fuel builds nodes that leave children where they are. -/
def Groups (P : Buffer → Prop) (ty : NodeType) (inner : List (Nat × Tree) → Nat → Tree)
    (fuel : Nat) : Prop :=
  ∀ (top : List (Nat × Tree) → Nat → Tree) (cs : List (Nat × Tree)) (start length : Nat),
    Makes P top → 3 * weightAll cs + 1 ≤ fuel → length ≤ maxWord →
    Fits P start (start + length) cs →
      (groupF ty inner fuel top cs start length).Formed P ∧
        (groupF ty inner fuel top cs start length).length = length

/-- Dividing with some fuel leaves children where they are.  It takes less fuel where the limit is
that of the children themselves, since a group then leaves some of them out. -/
def Divides (P : Buffer → Prop) (ty : NodeType) (inner : List (Nat × Tree) → Nat → Tree)
    (fuel : Nat) : Prop :=
  ∀ (limit : Nat) (cs : List (Nat × Tree)) (offset start lo hi : Nat),
    3 * weightAll cs + 2 ≤ fuel ∨ (3 * weightAll cs ≤ fuel ∧ limit ≤ totalSize ty cs) →
    start ≤ lo + offset → hi + offset - start ≤ maxWord → Fits P lo hi cs →
      Fits P (lo + offset - start) (hi + offset - start)
        (divideF ty inner fuel limit cs offset start)

theorem groupF_step (hdivides : Divides P ty inner fuel) : Groups P ty inner (fuel + 1) := by
  intro top cs start length htop hfuel hword h
  rw [groupF]
  refine htop _ _ hword ?_
  have key := hdivides (groupLimit (totalSize ty cs)) cs 0 start start (start + length)
    (Or.inr ⟨by omega, groupLimit_le _⟩) (by omega) (by omega) h
  rwa [show start + 0 - start = 0 by omega, show start + length + 0 - start = length by omega]
    at key

/-- A group takes the place of its children, and ends where the last of them ends. -/
theorem Groups.formed (hgroups : Groups P ty inner fuel) (hinner : Makes P inner)
    {c last : Nat × Tree} {taken : List (Nat × Tree)} {mid : Nat} (hc : c.2.Formed P)
    (htaken : Fits P (c.1 + c.2.length) mid taken) (hlast : taken.getLast? = some last)
    (hfuel : 3 * weightAll (c :: taken) + 1 ≤ fuel) (hword : mid - c.1 ≤ maxWord) :
    (groupF ty inner fuel inner (c :: taken) c.1 (last.1 + last.2.length - c.1)).Formed P ∧
      c.1 + (groupF ty inner fuel inner (c :: taken) c.1 (last.1 + last.2.length - c.1)).length ≤
        mid := by
  have hgroup : Fits P c.1 mid (c :: taken) := .cons (Nat.le_refl _) hc htaken
  have hlast' : (c :: taken).getLast? = some last := by
    rw [List.getLast?_cons, hlast]
    rfl
  obtain ⟨hfits, hstop⟩ := hgroup.to_last hlast'
  have hle := hfits.le
  have hlength : c.1 + (last.1 + last.2.length - c.1) = last.1 + last.2.length := by omega
  obtain ⟨hformed, hlen⟩ := hgroups inner (c :: taken) c.1 (last.1 + last.2.length - c.1) hinner
    hfuel (by omega) (by rwa [hlength])
  refine ⟨hformed, ?_⟩
  rw [hlen, hlength]
  exact hstop

theorem divideF_step (hinner : Makes P inner) (hgroups : Groups P ty inner fuel)
    (hdivides : Divides P ty inner fuel) : Divides P ty inner (fuel + 1) := by
  intro limit cs offset start lo hi hfuel hstart hword h
  cases cs with
  | nil =>
      have := h.le
      rw [divideF]
      · exact .nil (by omega)
      · simp
  | cons c rest =>
      obtain ⟨hlo, hc, hrest⟩ := h.of_cons
      have hsmall := weight_group_lt ty limit c rest
      have hsplit := growGroup_append ty limit (c.2.groupSize ty) rest
      rw [divideF]
      generalize growGroup ty limit (c.2.groupSize ty) rest = grown at hsmall hsplit ⊢
      obtain ⟨taken, size, after⟩ := grown
      simp only at hsmall hsplit ⊢
      subst hsplit
      obtain ⟨mid, htaken, hafter⟩ := hrest.split
      have hmid := htaken.le
      have hend := hafter.le
      have hweight : weightAll (c :: (taken ++ after)) =
          c.2.weight + weightAll taken + weightAll after := by
        rw [weightAll, weightAll_append]
        omega
      have hpos := c.2.weight_pos
      have hdone := hdivides limit after offset start mid hi (Or.inl (by omega)) (by omega)
        (by omega) hafter
      have hplace : word (c.1 + offset - start) = c.1 + offset - start := word_of_le (by omega)
      cases hlast : taken.getLast? with
      | none =>
          simp only
          split
          · -- the child gives way to its children
            rename_i hopen
            rw [Bool.and_eq_true] at hopen
            have hchildren := weight_children hopen.2
            have key := hdivides limit c.2.children (c.1 + offset) start 0 c.2.length
              (Or.inl (by omega)) (by omega) (by omega) (hc.fits_children hopen.2)
            exact (key.mono_left (by omega)).append (hdone.mono_left (by omega))
          · refine .cons (by simp only [hplace]; omega) hc (hdone.mono_left ?_)
            simp only [hplace]
            omega
      | some last =>
          -- the child starts a group
          have hne : taken ≠ [] := by
            rintro rfl
            cases hlast
          have hfuel' : 3 * weightAll (c :: taken) + 1 ≤ fuel := by
            rcases hfuel with hfuel | ⟨hfuel, hlimit⟩
            · simp only [weightAll]
              omega
            · have := hsmall hlimit hne
              omega
          obtain ⟨hformed, hstop⟩ := hgroups.formed hinner hc htaken hlast hfuel' (by omega)
          refine .cons (by simp only [hplace]; omega) hformed (hdone.mono_left ?_)
          simp only [hplace]
          omega

/-- Grouping and dividing leave children where they are. -/
theorem group_divide (hinner : Makes P inner) (fuel : Nat) :
    Groups P ty inner fuel ∧ Divides P ty inner fuel := by
  induction fuel with
  | zero =>
      constructor
      · intro _ _ _ _ _ hfuel
        omega
      · intro limit cs offset start lo hi hfuel hstart _ h
        cases cs with
        | nil =>
            have := h.le
            rw [divideF]
            exact .nil (by omega)
        | cons c rest =>
            have := weightAll_cons_pos c rest
            omega
  | succ fuel ih => exact ⟨groupF_step ih.2, divideF_step hinner ih.1 ih.2⟩

end Grouping

/-- **A balanced node is formed, and as long as it should be.** -/
theorem formed_balanceWith {P : Buffer → Prop} {ty : NodeType}
    {top inner : List (Nat × Tree) → Nat → Tree} (htop : Makes P top) (hinner : Makes P inner)
    {cs : List (Nat × Tree)} {length : Nat} (hword : length ≤ maxWord) (h : Fits P 0 length cs) :
    (balanceWith ty top inner cs length).Formed P ∧
      (balanceWith ty top inner cs length).length = length := by
  refine (group_divide hinner _).1 top cs 0 length htop (Nat.le_refl _) hword ?_
  rwa [Nat.zero_add]

end Tree

end IncrementalLR
