/-
**What edits leave of fragments.**

Edits take from the fragments of a document what they change and what lies between two changes that
are too close together.  Nothing else is lost: every other position of a fragment is found again
where the edits have moved it, in a fragment that shows the same place of the same tree.  And
nothing is made up or doubled, as the fragments that are left follow each other and each of their
positions comes from one of the old document.

The fragments are gone through once, together with the changes.  A fragment that reaches behind a
stretch between two changes is kept for the next stretch, and one that does not has no position
there.

Main definitions:

* `Fragment.span`, `Fragment.Shows`, `Fragment.ShownIn` — the range of a fragment, and the place of
  a tree that it shows at a position;
* `Fragment.Survives` — the positions that edits leave, and where they move them.

Main results:

* `Fragment.shownIn_cutStretch` — what is left of fragments in one stretch;
* `Fragment.shownIn_cutStretches` — what is left of them in all stretches;
* `Fragment.applyChanges_loses_nothing` — **edits leave exactly what they should**.
-/

import IncrementalLR.Proofs.OpenSides
import IncrementalLR.Proofs.Places

set_option relaxedAutoImplicit false
set_option autoImplicit false

namespace IncrementalLR

/-! ### Stretches and changed ranges -/

/-- No change of the new document reaches into what a stretch has become. -/
theorem SortedChanges.apart {old new a b : Nat} {afterEdit : Bool} {changes : List Change}
    (hold : old < 9223372036854775808) (hnew : new < 9223372036854775808)
    (h : SortedChanges old new a b changes) :
    ∀ s ∈ Fragment.stretches a ((a : Int) - b) afterEdit changes, ∀ c ∈ changes,
      (s.stop : Int) - s.shift ≤ c.newStart ∨ (c.newStop : Int) ≤ s.start - s.shift := by
  induction changes generalizing a b afterEdit with
  | nil =>
      intro s _ c hc
      cases hc
  | cons d rest ih =>
      intro s hs
      obtain ⟨h₁, h₂, h₃, h₄, h₅⟩ := h
      have hle := h₅.le
      rw [Fragment.stretches, signedPos_of_lt (by omega), signedPos_of_lt (by omega)] at hs
      rcases List.mem_cons.1 hs with rfl | hs
      · -- the stretch in front of the first change is in front of all
        intro c hc
        left
        dsimp only
        rcases List.mem_cons.1 hc with rfl | hc
        · omega
        · have hstart := h₅.le_newStart hc
          omega
      · exact List.forall_mem_cons.2 ⟨.inr (h₅.stretch hold hnew s hs).2.1, ih h₅ s hs⟩

namespace Fragment

/-! ### What fragments show -/

/-- The range of a fragment. -/
def span (f : Fragment) : Span := ⟨f.start, f.stop⟩

/-- Fragments that follow each other. -/
def Ordered (fragments : List Fragment) : Prop := Span.Ordered (fragments.map span)

theorem ordered_iff {fragments : List Fragment} : Ordered fragments ↔
    (∀ f ∈ fragments, f.start ≤ f.stop) ∧ fragments.Pairwise fun f g => f.stop ≤ g.start := by
  constructor
  · rintro ⟨hends, hapart⟩
    exact ⟨List.forall_mem_map.1 hends, List.pairwise_map.1 hapart⟩
  · rintro ⟨hends, hapart⟩
    exact ⟨List.forall_mem_map.2 hends, List.pairwise_map.2 hapart⟩

theorem ordered_append {fs gs : List Fragment} : Ordered (fs ++ gs) ↔
    Ordered fs ∧ Ordered gs ∧ ∀ f ∈ fs, ∀ g ∈ gs, f.stop ≤ g.start := by
  simp only [ordered_iff, List.forall_mem_append, List.pairwise_append]
  constructor
  · rintro ⟨⟨hfs, hgs⟩, hfs', hgs', hbetween⟩
    exact ⟨⟨hfs, hfs'⟩, ⟨hgs, hgs'⟩, hbetween⟩
  · rintro ⟨⟨hfs, hfs'⟩, ⟨hgs, hgs'⟩, hbetween⟩
    exact ⟨⟨hfs, hgs⟩, hfs', hgs', hbetween⟩

theorem Ordered.sublist {fs gs : List Fragment} (h : Ordered gs) (hsub : fs.Sublist gs) :
    Ordered fs := by
  rw [ordered_iff] at h ⊢
  exact ⟨fun f hf => h.1 f (hsub.subset hf), h.2.sublist hsub⟩

/-- At a position of its range a fragment shows a place of its tree. -/
structure Shows (f : Fragment) (pos : Nat) (t : Tree) (place : Int) : Prop where
  start_le : f.start ≤ pos
  lt_stop : pos < f.stop
  tree : f.tree = t
  place : pos + f.offset = place

/-- One of some fragments shows a place of a tree at a position. -/
def ShownIn (fragments : List Fragment) (pos : Nat) (t : Tree) (place : Int) : Prop :=
  ∃ f ∈ fragments, f.Shows pos t place

section Showing

variable {pos : Nat} {t : Tree} {place : Int}

@[simp] theorem shownIn_nil : ¬ ShownIn [] pos t place := by
  rintro ⟨f, hf, -⟩
  cases hf

@[simp] theorem shownIn_cons {f : Fragment} {rest : List Fragment} :
    ShownIn (f :: rest) pos t place ↔ f.Shows pos t place ∨ ShownIn rest pos t place := by
  simp only [ShownIn, List.mem_cons, or_and_right, exists_or, exists_eq_left]

@[simp] theorem shownIn_append {fs gs : List Fragment} :
    ShownIn (fs ++ gs) pos t place ↔ ShownIn fs pos t place ∨ ShownIn gs pos t place := by
  simp only [ShownIn, List.mem_append, or_and_right, exists_or]

end Showing

/-! ### The positions that are left -/

/-- A position of the old document that edits leave, and the one of the new document that it
becomes, from the position `a` of the old and `b` of the new document on: it lies behind the last
change, or in front of the next change or between two in a stretch of at least `minGap` bytes. -/
def Survives (minGap : Nat) : Nat → Nat → List Change → Nat → Nat → Prop
  | a, b, [], x, y => a ≤ x ∧ x + b = y + a
  | a, b, c :: rest, x, y =>
      (a ≤ x ∧ x < c.oldStart ∧ minGap ≤ c.oldStart - a ∧ x + b = y + a) ∨
        Survives minGap c.oldStop c.newStop rest x y

namespace Survives

variable {old new minGap a b x y : Nat} {changes : List Change}

theorem moved (h : Survives minGap a b changes x y) : Moved a b changes x y := by
  induction changes generalizing a b with
  | nil => exact h
  | cons c rest ih => exact h.imp (fun ⟨ha, hx, _, hy⟩ => ⟨ha, Nat.le_of_lt hx, hy⟩) ih

/-- What is left lies behind the place from which on changes are made, in both documents. -/
theorem le (hsorted : SortedChanges old new a b changes) (h : Survives minGap a b changes x y) :
    a ≤ x ∧ b ≤ y := by
  refine ⟨?_, hsorted.le_of_moved h.moved⟩
  induction changes generalizing a b with
  | nil => exact h.1
  | cons c rest ih =>
      obtain ⟨h₁, h₂, h₃, h₄, h₅⟩ := hsorted
      rcases h with h | h
      · exact h.1
      · have hle := ih h₅ h
        omega

/-- A position of the new document comes from one of the old one. -/
theorem inj {x' : Nat} (hsorted : SortedChanges old new a b changes)
    (h : Survives minGap a b changes x y) (h' : Survives minGap a b changes x' y) : x = x' := by
  induction changes generalizing a b with
  | nil =>
      obtain ⟨hx, hy⟩ := h
      obtain ⟨hx', hy'⟩ := h'
      omega
  | cons c rest ih =>
      obtain ⟨h₁, h₂, h₃, h₄, h₅⟩ := hsorted
      rcases h with ⟨hx, hlt, -, hy⟩ | h <;> rcases h' with ⟨hx', hlt', -, hy'⟩ | h'
      · omega
      · have hle := (h'.le h₅).2
        omega
      · have hle := (h.le h₅).2
        omega
      · exact ih h₅ h h'

end Survives

/-! ### One stretch -/

section Stretches

variable {s : Stretch} {f g : Fragment} {fragments : List Fragment} {y : Nat} {t : Tree}
  {place : Int}

/-- A stretch whose numbers are small, also as it is moved. -/
structure Stretch.Fits (s : Stretch) : Prop where
  start : s.start < 9223372036854775808
  moved : 0 ≤ (s.start : Int) - s.shift

/-- A stretch from `a` on that is moved to `b`. -/
theorem Stretch.fits_moved {a b stop : Nat} {afterEdit beforeEdit : Bool}
    (h : a < 9223372036854775808) : Stretch.Fits ⟨a, stop, a - b, afterEdit, beforeEdit⟩ where
  start := h
  moved := by
    dsimp only
    omega

theorem tree_of_mem_cut (h : g ∈ f.cut s) : g.tree = f.tree ∧ g.offset = f.offset + s.shift := by
  unfold cut at h
  split at h
  · dsimp only at h
    split at h
    · obtain rfl := List.mem_singleton.1 h
      exact ⟨rfl, rfl⟩
    · cases h
  · rename_i hwhole
    obtain rfl := List.mem_singleton.1 h
    simp only [Bool.or_eq_true, decide_eq_true_eq] at hwhole
    exact ⟨rfl, by omega⟩

/-- The part of a fragment in a stretch has the range that both have in common, moved. -/
theorem range_of_mem_cut (hs : s.Fits) (hrange : f.start ≤ f.stop)
    (hstop : f.stop < 9223372036854775808) (h : g ∈ f.cut s) :
    (g.start : Int) = (max s.start f.start : Nat) - s.shift ∧
      (g.stop : Int) = (min s.stop f.stop : Nat) - s.shift ∧ g.start ≤ g.stop := by
  cases leaves_of_mem_cut h hrange hstop hs.start hs.moved with
  | whole same start stop still =>
      subst same
      omega
  | part cut openStart openEnd lt start stop => exact ⟨start, stop, Nat.le_of_lt lt⟩

/-- What a stretch has in common with a fragment is left of it. -/
theorem exists_mem_cut (hlt : max s.start f.start < min s.stop f.stop)
    (hstop : f.stop < 9223372036854775808) : ∃ g, g ∈ f.cut s := by
  unfold cut
  split
  · rw [signedPos_of_lt (by omega), signedPos_of_lt (by omega)]
    dsimp only
    rw [if_pos (by omega)]
    exact ⟨_, List.mem_cons_self⟩
  · exact ⟨_, List.mem_cons_self⟩

/-- What is left of a fragment in a stretch. -/
theorem shownIn_cut (hs : s.Fits) (hrange : f.start ≤ f.stop)
    (hstop : f.stop < 9223372036854775808) :
    ShownIn (f.cut s) y t place ↔
      ∃ x, f.Shows x t place ∧ s.start ≤ x ∧ x < s.stop ∧ (x : Int) = y + s.shift := by
  constructor
  · rintro ⟨g, hg, hy⟩
    obtain ⟨hgstart, hgstop, -⟩ := range_of_mem_cut hs hrange hstop hg
    obtain ⟨htree, hoffset⟩ := tree_of_mem_cut hg
    obtain ⟨hgy, hyg, hyt, hplace⟩ := hy
    refine ⟨(y + s.shift).toNat, ⟨?_, ?_, htree ▸ hyt, ?_⟩, ?_, ?_, ?_⟩
    all_goals omega
  · rintro ⟨x, ⟨hfx, hxf, hxt, hplace⟩, hstart, hlt, hxy⟩
    obtain ⟨g, hg⟩ := exists_mem_cut (s := s) (f := f) (by omega) hstop
    obtain ⟨hgstart, hgstop, -⟩ := range_of_mem_cut hs hrange hstop hg
    obtain ⟨htree, hoffset⟩ := tree_of_mem_cut hg
    exact ⟨g, hg, by omega, by omega, htree.trans hxt, by omega⟩

/-- What is left of fragments in a stretch.  The first one that reaches behind it is the last one of
which something is left. -/
theorem shownIn_cutAll (hs : s.Fits) (hordered : Ordered fragments)
    (hfits : ∀ f ∈ fragments, f.stop < 9223372036854775808) :
    ShownIn (cutAll s fragments).1 y t place ↔
      ∃ x, ShownIn fragments x t place ∧ s.start ≤ x ∧ x < s.stop ∧ (x : Int) = y + s.shift := by
  induction fragments with
  | nil => simp [cutAll]
  | cons f rest ih =>
      obtain ⟨hends, hapart⟩ := ordered_iff.1 hordered
      obtain ⟨hbehind, -⟩ := List.pairwise_cons.1 hapart
      have hf := @shownIn_cut s f y t place hs (hends f List.mem_cons_self)
        (hfits f List.mem_cons_self)
      have hordered' := hordered.sublist (List.sublist_cons_self f rest)
      have hrest := ih hordered' fun g hg => hfits g (List.mem_cons_of_mem _ hg)
      simp only [shownIn_cons, or_and_right, exists_or]
      rw [← hf]
      -- fragments behind the stretch have nothing in it
      have hnone : s.stop ≤ f.stop → ¬ ∃ x, ShownIn rest x t place ∧ s.start ≤ x ∧ x < s.stop ∧
          (x : Int) = y + s.shift := by
        rintro hle ⟨x, ⟨g, hg, hx⟩, -, hlt, -⟩
        have hfollows := hbehind g hg
        have hstart := hx.start_le
        omega
      rw [cutAll]
      split
      · rename_i hstart
        have hle := hends f List.mem_cons_self
        refine iff_of_false shownIn_nil (not_or.2 ⟨?_, hnone (by omega)⟩)
        rw [hf]
        rintro ⟨x, hx, -, hlt, -⟩
        have hfx := hx.start_le
        omega
      · split
        · rename_i hreaches
          exact (or_iff_left (hnone (Nat.le_of_lt hreaches))).symm
        · rw [shownIn_append, hrest]

/-- The fragments that are left over show what is shown behind the stretch. -/
theorem shownIn_left {x : Nat} (hx : s.stop ≤ x) :
    ShownIn (cutAll s fragments).2 x t place ↔ ShownIn fragments x t place := by
  induction fragments with
  | nil => rfl
  | cons f rest ih =>
      rw [cutAll]
      split
      · rfl
      · split
        · rfl
        · have hnot : ¬ f.Shows x t place := by
            intro h
            have := h.lt_stop
            omega
          rw [shownIn_cons, or_iff_right hnot, ih]

theorem left_sublist (s : Stretch) (fragments : List Fragment) :
    (cutAll s fragments).2.Sublist fragments := by
  induction fragments with
  | nil => exact .slnil
  | cons f rest ih =>
      rw [cutAll]
      split
      · exact .refl _
      · split
        · exact .refl _
        · exact ih.cons f

theorem ordered_cut (hs : s.Fits) (hrange : f.start ≤ f.stop)
    (hstop : f.stop < 9223372036854775808) : Ordered (f.cut s) := by
  refine ordered_iff.2 ⟨fun g hg => (range_of_mem_cut hs hrange hstop hg).2.2, ?_⟩
  unfold cut
  split
  · dsimp only
    split
    · exact List.pairwise_singleton _ _
    · exact .nil
  · exact List.pairwise_singleton _ _

/-- What is left of fragments in a stretch lies where the stretch is moved. -/
theorem within_of_mem_cutAll (hs : s.Fits) (hordered : Ordered fragments)
    (hfits : ∀ f ∈ fragments, f.stop < 9223372036854775808) (hg : g ∈ (cutAll s fragments).1) :
    (s.start : Int) - s.shift ≤ g.start ∧ (g.stop : Int) ≤ s.stop - s.shift := by
  obtain ⟨f, hf, -, hcut⟩ := mem_cutAll.1 g hg
  obtain ⟨hstart, hstop, -⟩ :=
    range_of_mem_cut hs ((ordered_iff.1 hordered).1 f hf) (hfits f hf) hcut
  omega

/-- What is left of fragments in a stretch follows each other. -/
theorem ordered_cutAll (hs : s.Fits) (hordered : Ordered fragments)
    (hfits : ∀ f ∈ fragments, f.stop < 9223372036854775808) :
    Ordered (cutAll s fragments).1 := by
  induction fragments with
  | nil => exact ordered_iff.2 ⟨by simp [cutAll], .nil⟩
  | cons f rest ih =>
      obtain ⟨hends, hapart⟩ := ordered_iff.1 hordered
      obtain ⟨hbehind, -⟩ := List.pairwise_cons.1 hapart
      have hone := ordered_cut hs (hends f List.mem_cons_self) (hfits f List.mem_cons_self)
      rw [cutAll]
      split
      · exact ordered_iff.2 ⟨by simp, .nil⟩
      · split
        · exact hone
        · have hordered' := hordered.sublist (List.sublist_cons_self f rest)
          have hrest := ih hordered' fun g hg => hfits g (List.mem_cons_of_mem _ hg)
          refine ordered_append.2 ⟨hone, hrest, ?_⟩
          intro g hg g' hg'
          obtain ⟨f', hf', -, hcut⟩ := mem_cutAll.1 g' hg'
          have hmem : f' ∈ f :: rest := List.mem_cons_of_mem _ hf'
          have hfirst := range_of_mem_cut hs (hends f List.mem_cons_self)
            (hfits f List.mem_cons_self) hg
          have hlater := range_of_mem_cut hs (hends f' hmem) (hfits f' hmem) hcut
          have hfollows := hbehind f' hf'
          omega

/-! ### One stretch that may be too short -/

/-- What is left of fragments in a stretch, if it is long enough. -/
theorem shownIn_cutStretch {minGap : Nat} (hs : s.Fits) (hordered : Ordered fragments)
    (hfits : ∀ f ∈ fragments, f.stop < 9223372036854775808) :
    ShownIn (cutStretch minGap s fragments).1 y t place ↔
      ∃ x, ShownIn fragments x t place ∧
        (s.start ≤ x ∧ x < s.stop ∧ minGap ≤ s.stop - s.start ∧ (x : Int) = y + s.shift) := by
  unfold cutStretch
  split
  · rename_i hgap
    simp only [shownIn_cutAll hs hordered hfits, hgap, true_and]
  · rename_i hshort
    refine iff_of_false shownIn_nil ?_
    rintro ⟨x, -, -, -, hgap, -⟩
    exact hshort hgap

theorem cutStretch_left (minGap : Nat) (s : Stretch) (fragments : List Fragment) :
    (cutStretch minGap s fragments).2.Sublist fragments ∧ ∀ x t place, s.stop ≤ x →
      (ShownIn (cutStretch minGap s fragments).2 x t place ↔ ShownIn fragments x t place) := by
  unfold cutStretch
  split
  · exact ⟨left_sublist s fragments, fun x t place hx => shownIn_left hx⟩
  · exact ⟨.refl _, fun _ _ _ _ => .rfl⟩

/-- What is left of fragments in a stretch follows each other, where the stretch is moved. -/
theorem ordered_cutStretch (minGap : Nat) (hs : s.Fits) (hordered : Ordered fragments)
    (hfits : ∀ f ∈ fragments, f.stop < 9223372036854775808) :
    Ordered (cutStretch minGap s fragments).1 ∧ ∀ g ∈ (cutStretch minGap s fragments).1,
      (s.start : Int) - s.shift ≤ g.start ∧ (g.stop : Int) ≤ s.stop - s.shift := by
  unfold cutStretch
  split
  · exact ⟨ordered_cutAll hs hordered hfits, fun g => within_of_mem_cutAll hs hordered hfits⟩
  · exact ⟨ordered_iff.2 ⟨by simp, .nil⟩, by simp⟩

end Stretches

/-! ### All stretches -/

section Changes

variable {old new minGap a b : Nat} {afterEdit : Bool} {changes : List Change}
  {fragments : List Fragment}

/-- **What is left of fragments in all stretches**: at the positions that survive the edits, they
show what they showed before. -/
theorem shownIn_cutStretches (hordered : Ordered fragments)
    (hfits : ∀ f ∈ fragments, f.stop < 4611686018427387904) (hold : old < 4611686018427387904)
    (hnew : new < 4611686018427387904) (hgap : minGap < 4611686018427387904)
    (hsorted : SortedChanges old new a b changes) {y : Nat} {t : Tree} {place : Int} :
    ShownIn (cutStretches minGap a ((a : Int) - b) afterEdit changes fragments) y t place ↔
      ∃ x, ShownIn fragments x t place ∧ Survives minGap a b changes x y := by
  have hsmall : ∀ f ∈ fragments, f.stop < 9223372036854775808 := by
    intro f hf
    have := hfits f hf
    omega
  induction changes generalizing a b afterEdit fragments with
  | nil =>
      obtain ⟨ha, hb⟩ := hsorted.le
      rw [cutStretches, shownIn_cutStretch (Stretch.fits_moved (by omega)) hordered hsmall]
      refine exists_congr fun x => and_congr_right fun hx => ?_
      obtain ⟨f, hf, hx⟩ := hx
      have hlt := hx.lt_stop
      have hstop := hfits f hf
      simp only [Survives, maxPos]
      omega
  | cons c rest ih =>
      obtain ⟨h₁, h₂, h₃, h₄, h₅⟩ := hsorted
      have hle := h₅.le
      obtain ⟨hsub, hleft⟩ :=
        cutStretch_left minGap ⟨a, c.oldStart, a - b, afterEdit, true⟩ fragments
      have hrest := @ih c.oldStop c.newStop true _ (hordered.sublist hsub)
        (fun f hf => hfits f (hsub.subset hf)) h₅ fun f hf => hsmall f (hsub.subset hf)
      rw [cutStretches, signedPos_of_lt (by omega), signedPos_of_lt (by omega), shownIn_append]
      refine (or_congr (shownIn_cutStretch (Stretch.fits_moved (by omega)) hordered hsmall)
        hrest).trans ?_
      simp only [Survives, and_or_left, exists_or]
      refine or_congr ?_ ?_
      · refine exists_congr fun x => and_congr_right fun _ => ?_
        omega
      · refine exists_congr fun x => and_congr_left fun hx => hleft x t place ?_
        exact Nat.le_trans h₂ (hx.le h₅).1

/-- What is left of fragments keeps clear of the changes, and lies behind the place from which on
they are made. -/
theorem apart_cutStretches (hordered : Ordered fragments)
    (hfits : ∀ f ∈ fragments, f.stop < 9223372036854775808) (hold : old < 9223372036854775808)
    (hnew : new < 9223372036854775808) (hsorted : SortedChanges old new a b changes) :
    ∀ g ∈ cutStretches minGap a ((a : Int) - b) afterEdit changes fragments,
      b ≤ g.start ∧ ∀ c ∈ changes, g.stop ≤ c.newStart ∨ c.newStop ≤ g.start := by
  intro g hg
  obtain ⟨f, hf, s, hs, -, -, hcut⟩ := mem_cutStretches g hg
  obtain ⟨hstart, hfrom, -⟩ := hsorted.stretch hold hnew s hs
  obtain ⟨hgstart, hgstop, -⟩ := range_of_mem_cut ⟨by omega, by omega⟩
    ((ordered_iff.1 hordered).1 f hf) (hfits f hf) hcut
  refine ⟨by omega, ?_⟩
  intro c hc
  have hclear := hsorted.apart hold hnew s hs c hc
  omega

/-- What is left of fragments follows each other. -/
theorem ordered_cutStretches (hordered : Ordered fragments)
    (hfits : ∀ f ∈ fragments, f.stop < 9223372036854775808) (hold : old < 9223372036854775808)
    (hnew : new < 9223372036854775808) (hsorted : SortedChanges old new a b changes) :
    Ordered (cutStretches minGap a ((a : Int) - b) afterEdit changes fragments) := by
  induction changes generalizing a b afterEdit fragments with
  | nil =>
      obtain ⟨ha, hb⟩ := hsorted.le
      exact (ordered_cutStretch minGap (Stretch.fits_moved (by omega)) hordered hfits).1
  | cons c rest ih =>
      obtain ⟨h₁, h₂, h₃, h₄, h₅⟩ := hsorted
      have hle := h₅.le
      obtain ⟨hsub, -⟩ := cutStretch_left minGap ⟨a, c.oldStart, a - b, afterEdit, true⟩ fragments
      have hordered' := hordered.sublist hsub
      have hfits' := fun f hf => hfits f (hsub.subset hf)
      obtain ⟨hfirst, hwithin⟩ := ordered_cutStretch minGap
        (s := ⟨a, c.oldStart, a - b, afterEdit, true⟩) (Stretch.fits_moved (by omega)) hordered
        hfits
      rw [cutStretches, signedPos_of_lt (by omega), signedPos_of_lt (by omega)]
      refine ordered_append.2 ⟨hfirst, ih hordered' hfits' h₅, ?_⟩
      -- the first change lies between them
      intro g hg g' hg'
      have hbefore := (hwithin g hg).2
      have hbehind := (apart_cutStretches hordered' hfits' hold hnew h₅ g' hg').1
      dsimp only at hbefore
      omega

end Changes

/-! ### The edits -/

/-- Without edits all positions stay. -/
theorem shownIn_unchanged {fragments : List Fragment} {minGap y : Nat} {t : Tree} {place : Int} :
    ShownIn fragments y t place ↔
      ∃ x, ShownIn fragments x t place ∧ Survives minGap 0 0 [] x y := by
  constructor
  · exact fun h => ⟨y, h, Nat.zero_le y, rfl⟩
  · rintro ⟨x, hx, -, hxy⟩
    obtain rfl : x = y := hxy
    exact hx

/-- A position lies in only one of fragments that follow each other. -/
theorem Ordered.eq_of_shows {fragments : List Fragment} (hordered : Ordered fragments)
    {f g : Fragment} (hf : f ∈ fragments) (hg : g ∈ fragments) {pos : Nat} {t t' : Tree}
    {place place' : Int} (h : f.Shows pos t place) (h' : g.Shows pos t' place') : f = g := by
  obtain ⟨-, hapart⟩ := ordered_iff.1 hordered
  have hboth := List.Pairwise.forall_of_forall_of_flip
    (R := fun f g : Fragment => f = g ∨ f.stop ≤ g.start ∨ g.stop ≤ f.start)
    (fun f _ => .inl rfl) (hapart.imp fun hle => .inr (.inl hle))
    (hapart.imp fun hle => .inr (.inr hle)) hf hg
  have := h.start_le
  have := h.lt_stop
  have := h'.start_le
  have := h'.lt_stop
  exact hboth.resolve_right (by omega)

/-- **Edits leave exactly what they should.**  What they leave of fragments that follow each other
follows each other as well and keeps clear of the changes.  Something is shown at a position exactly
if it was shown at one that survives the edits and becomes this one, so a fragment that is left has
the tree and the place in it that the fragment had at the position from before. -/
theorem applyChanges_loses_nothing {fragments : List Fragment} {changes : List Change}
    {minGap old new : Nat} (hordered : Ordered fragments)
    (hfits : ∀ f ∈ fragments, f.stop < 4611686018427387904) (hold : old < 4611686018427387904)
    (hnew : new < 4611686018427387904) (hgap : minGap < 4611686018427387904)
    (hsorted : SortedChanges old new 0 0 changes) :
    Ordered (applyChanges fragments changes minGap) ∧
      (∀ g ∈ applyChanges fragments changes minGap, ∀ c ∈ changes,
        g.stop ≤ c.newStart ∨ c.newStop ≤ g.start) ∧
      (∀ y t place, ShownIn (applyChanges fragments changes minGap) y t place ↔
        ∃ x, ShownIn fragments x t place ∧ Survives minGap 0 0 changes x y) ∧
      ∀ f ∈ fragments, ∀ g ∈ applyChanges fragments changes minGap, ∀ x y,
        f.span.Holds x → g.span.Holds y → Survives minGap 0 0 changes x y →
          g.tree = f.tree ∧ y + g.offset = x + f.offset := by
  have hsmall : ∀ f ∈ fragments, f.stop < 9223372036854775808 := by
    intro f hf
    have := hfits f hf
    omega
  have hshown : ∀ y t place, ShownIn (applyChanges fragments changes minGap) y t place ↔
      ∃ x, ShownIn fragments x t place ∧ Survives minGap 0 0 changes x y := by
    intro y t place
    cases changes with
    | nil => exact shownIn_unchanged
    | cons c rest => exact shownIn_cutStretches hordered hfits hold hnew hgap hsorted
  refine ⟨?_, ?_, hshown, ?_⟩
  · cases changes with
    | nil => exact hordered
    | cons c rest => exact ordered_cutStretches hordered hsmall (by omega) (by omega) hsorted
  · cases changes with
    | nil =>
        intro g _ c hc
        cases hc
    | cons c rest =>
        intro g hg
        exact (apart_cutStretches hordered hsmall (by omega) (by omega) hsorted g hg).2
  · intro f hf g hg x y hx hy hsurvives
    obtain ⟨x', ⟨f', hf', hshows⟩, hsurvives'⟩ :=
      (hshown y g.tree (y + g.offset)).1 ⟨g, hg, hy.1, hy.2, rfl, rfl⟩
    obtain rfl := hsurvives'.inj hsorted hsurvives
    obtain rfl := hordered.eq_of_shows hf' hf hshows ⟨hx.1, hx.2, rfl, rfl⟩
    exact ⟨hshows.tree.symm, hshows.place.symm⟩

/-- A fragment that two changes cut, one between two changes, and one that the last change cuts. -/
def threeFragments : List Fragment :=
  [⟨0, 400, Batch.thousandBytes, 0, false, false⟩, ⟨450, 460, Batch.thousandBytes, 5, true, true⟩,
    ⟨500, 1000, Batch.thousandBytes, -500, true, false⟩]

/-- Changes of which the second follows the first closely. -/
def threeChanges : List Change := [⟨200, 210, 200, 220⟩, ⟨300, 300, 310, 311⟩, ⟨700, 750, 711, 711⟩]

/-- Only the text between the first two changes is lost, apart from what they change. -/
theorem applyChanges_loses_nothing_three :
    Ordered threeFragments ∧ SortedChanges 1000 961 0 0 threeChanges ∧
      (applyChanges threeFragments threeChanges 128).map (fun g => (g.start, g.stop, g.offset)) =
        [(0, 200, 0), (311, 411, -11), (461, 471, -6), (511, 711, -511), (711, 961, -461)] ∧
      ∀ y t place, ShownIn (applyChanges threeFragments threeChanges 128) y t place ↔
        ∃ x, ShownIn threeFragments x t place ∧ Survives 128 0 0 threeChanges x y := by
  have hordered : Ordered threeFragments := by
    simp [ordered_iff, threeFragments]
  have hsorted : SortedChanges 1000 961 0 0 threeChanges := by
    simp [SortedChanges, threeChanges]
  exact ⟨hordered, hsorted, rfl, (applyChanges_loses_nothing hordered (by simp [threeFragments])
    (by decide) (by decide) (by decide) hsorted).2.2.1⟩

end Fragment

end IncrementalLR
