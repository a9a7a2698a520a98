/-
**Open sides after several edits.**

A side of a fragment that borders an edit is open, and it has to stay open while further edits move
the fragment along.  An edit cuts fragments at its changes and gives each piece new marks, which say
whether the piece borders one of these changes; only a fragment that is neither cut nor moved keeps
its own marks.  So a side that an earlier edit has opened stays open behind the first change and
before the last one, and is closed again where a fragment is cut, or moved, in the text in front of
the first change or behind the last one.

Main definitions:

* `Fragment.stretches`, `Fragment.IsPiece` — the text between changes, and the pieces of a fragment;
* `SortedChanges`, `Moved` — changes between two documents, and positions outside of them;
* `Batch`, `Batch.Spares` — a batch of changes, and that it closes no open side;
* `touched` — the positions at text that some batch has changed.

Main results:

* `Fragment.isPiece_of_mem_applyChanges` — what is left of fragments are pieces of them;
* `Fragment.IsPiece.keeps_open` — a batch that spares a fragment keeps its sides open;
* `Batch.opensTouched_apply` — one batch leaves all sides at changed text open;
* `Batch.applyAll_keeps_open` — **sides at changed text stay open** after any number of batches.
-/

import IncrementalLR.Tree.Fragment

set_option relaxedAutoImplicit false
set_option autoImplicit false

namespace IncrementalLR

namespace Fragment

/-! ### Pieces -/

/-- The stretches between changes, the first of which starts at `start`. -/
def stretches : Nat → Int → Bool → List Change → List Stretch
  | start, shift, afterEdit, [] => [⟨start, maxPos, shift, afterEdit, false⟩]
  | start, shift, afterEdit, c :: rest =>
      ⟨start, c.oldStart, shift, afterEdit, true⟩ ::
        stretches c.oldStop (signedPos c.oldStop - signedPos c.newStop) true rest

/-- A fragment is a piece of another one: the part of it in one of the stretches between changes
that are long enough. -/
def IsPiece (minGap : Nat) (changes : List Change) (f piece : Fragment) : Prop :=
  if changes = [] then piece = f
  else ∃ s ∈ stretches 0 0 false changes,
    minGap ≤ s.stop - s.start ∧ f.start < s.stop ∧ piece ∈ f.cut s

/-- Behind an edit all stretches are behind an edit. -/
theorem afterEdit_of_mem_stretches {start : Nat} {shift : Int} {changes : List Change}
    {s : Stretch} (h : s ∈ stretches start shift true changes) : s.afterEdit = true := by
  induction changes generalizing start shift with
  | nil =>
      obtain rfl := List.mem_singleton.1 h
      rfl
  | cons c rest ih =>
      rcases List.mem_cons.1 h with rfl | h
      · rfl
      · exact ih h

/-- Only the stretch in front of the first change has no edit before it. -/
theorem first_stretch {start : Nat} {shift : Int} {c : Change} {rest : List Change} {s : Stretch}
    (h : s ∈ stretches start shift false (c :: rest)) (hs : s.afterEdit = false) :
    s = ⟨start, c.oldStart, shift, false, true⟩ := by
  rcases List.mem_cons.1 h with rfl | h
  · rfl
  · rw [afterEdit_of_mem_stretches h] at hs
    cases hs

/-- Only the stretch behind the last change has no edit behind it. -/
theorem last_stretch {start : Nat} {shift : Int} {afterEdit : Bool} {c : Change}
    {rest : List Change} {s : Stretch} (h : s ∈ stretches start shift afterEdit (c :: rest))
    (hs : s.beforeEdit = false) : ∃ last ∈ (c :: rest).getLast?,
      s = ⟨last.oldStop, maxPos, signedPos last.oldStop - signedPos last.newStop, true, false⟩ := by
  induction rest generalizing start shift afterEdit c with
  | nil =>
      rcases List.mem_cons.1 h with rfl | h
      · cases hs
      · exact ⟨c, rfl, List.mem_singleton.1 h⟩
  | cons d rest ih =>
      rcases List.mem_cons.1 h with rfl | h
      · cases hs
      · rw [List.getLast?_cons_cons]
        exact ih h

/-- What a stretch leaves of a fragment. -/
inductive Leaves (s : Stretch) (f piece : Fragment) : Prop
  /-- A fragment inside of a stretch that moves nothing stays as it is. -/
  | whole (same : piece = f) (start : s.start < f.start) (stop : f.stop < s.stop)
      (still : s.shift = 0)
  /-- Of any other fragment the part in the stretch is moved and gets the marks of the stretch. -/
  | part (cut : f.start ≤ s.start ∨ s.stop ≤ f.stop ∨ s.shift ≠ 0)
      (openStart : piece.openStart = s.afterEdit) (openEnd : piece.openEnd = s.beforeEdit)
      (lt : piece.start < piece.stop)
      (start : (piece.start : Int) = (max s.start f.start : Nat) - s.shift)
      (stop : (piece.stop : Int) = (min s.stop f.stop : Nat) - s.shift)

theorem leaves_of_mem_cut {f piece : Fragment} {s : Stretch} (h : piece ∈ f.cut s)
    (hrange : f.start ≤ f.stop) (hstop : f.stop < 9223372036854775808)
    (hstart : s.start < 9223372036854775808) (hshift : 0 ≤ (s.start : Int) - s.shift) :
    Leaves s f piece := by
  rw [cut, signedPos_of_lt (show max s.start f.start < _ by omega),
    signedPos_of_lt (show min s.stop f.stop < _ by omega)] at h
  split at h
  · rename_i hcut
    rw [Bool.or_eq_true, Bool.or_eq_true, decide_eq_true_eq, decide_eq_true_eq,
      decide_eq_true_eq, or_assoc] at hcut
    dsimp only at h
    split at h
    · rename_i hlt
      obtain rfl := List.mem_singleton.1 h
      have hpos : ∀ n : Int, 0 ≤ n → ((posOfSigned n : Nat) : Int) = n := by
        intro n hn
        rw [posOfSigned, if_pos hn]
        omega
      have hfrom := hpos ((max s.start f.start : Nat) - s.shift) (by omega)
      have hto := hpos ((min s.stop f.stop : Nat) - s.shift) (by omega)
      exact .part hcut rfl rfl (by dsimp only; omega) hfrom hto
    · cases h
  · rename_i hwhole
    rw [Bool.or_eq_true, Bool.or_eq_true, decide_eq_true_eq, decide_eq_true_eq,
      decide_eq_true_eq] at hwhole
    exact .whole (List.mem_singleton.1 h) (by omega) (by omega) (by omega)

theorem mem_cutAll {s : Stretch} {fragments : List Fragment} :
    (∀ piece ∈ (cutAll s fragments).1, ∃ f ∈ fragments, f.start < s.stop ∧ piece ∈ f.cut s) ∧
      ∀ f ∈ (cutAll s fragments).2, f ∈ fragments := by
  induction fragments with
  | nil => exact ⟨fun piece h => (by cases h), fun f h => h⟩
  | cons f rest ih =>
      rw [cutAll]
      split
      · exact ⟨fun piece h => (by cases h), fun g h => h⟩
      · rename_i hstart
        have hf : ∀ piece ∈ f.cut s, ∃ g ∈ f :: rest, g.start < s.stop ∧ piece ∈ g.cut s :=
          fun piece h => ⟨f, List.mem_cons_self, Nat.lt_of_not_le hstart, h⟩
        split
        · exact ⟨hf, fun g h => h⟩
        · refine ⟨?_, fun g h => List.mem_cons_of_mem _ (ih.2 g h)⟩
          intro piece h
          rcases List.mem_append.1 h with h | h
          · exact hf piece h
          · obtain ⟨g, hg, hpiece⟩ := ih.1 piece h
            exact ⟨g, List.mem_cons_of_mem _ hg, hpiece⟩

theorem mem_cutStretch {minGap : Nat} {s : Stretch} {fragments : List Fragment} :
    (∀ piece ∈ (cutStretch minGap s fragments).1, ∃ f ∈ fragments,
      minGap ≤ s.stop - s.start ∧ f.start < s.stop ∧ piece ∈ f.cut s) ∧
      ∀ f ∈ (cutStretch minGap s fragments).2, f ∈ fragments := by
  rw [cutStretch]
  split
  · rename_i hgap
    refine ⟨?_, mem_cutAll.2⟩
    intro piece h
    obtain ⟨f, hf, hpiece⟩ := mem_cutAll.1 piece h
    exact ⟨f, hf, hgap, hpiece⟩
  · exact ⟨fun piece h => (by cases h), fun f h => h⟩

theorem mem_cutStretches {minGap start : Nat} {shift : Int} {afterEdit : Bool}
    {changes : List Change} {fragments : List Fragment} :
    ∀ piece ∈ cutStretches minGap start shift afterEdit changes fragments, ∃ f ∈ fragments,
      ∃ s ∈ stretches start shift afterEdit changes,
        minGap ≤ s.stop - s.start ∧ f.start < s.stop ∧ piece ∈ f.cut s := by
  induction changes generalizing start shift afterEdit fragments with
  | nil =>
      intro piece h
      obtain ⟨f, hf, hpiece⟩ := mem_cutStretch.1 piece h
      exact ⟨f, hf, _, List.mem_cons_self, hpiece⟩
  | cons c rest ih =>
      intro piece h
      rcases List.mem_append.1 h with h | h
      · obtain ⟨f, hf, hpiece⟩ := mem_cutStretch.1 piece h
        exact ⟨f, hf, _, List.mem_cons_self, hpiece⟩
      · obtain ⟨f, hf, s, hs, hpiece⟩ := ih piece h
        exact ⟨f, mem_cutStretch.2 f hf, s, List.mem_cons_of_mem _ hs, hpiece⟩

/-- What is left of fragments are pieces of them. -/
theorem isPiece_of_mem_applyChanges {minGap : Nat} {changes : List Change}
    {fragments : List Fragment} :
    ∀ piece ∈ applyChanges fragments changes minGap,
      ∃ f ∈ fragments, f.IsPiece minGap changes piece := by
  intro piece h
  cases changes with
  | nil => exact ⟨piece, h, by rw [IsPiece, if_pos rfl]⟩
  | cons c rest =>
      obtain ⟨f, hf, hpiece⟩ := mem_cutStretches piece h
      exact ⟨f, hf, by rw [IsPiece, if_neg (List.cons_ne_nil _ _)]; exact hpiece⟩

end Fragment

/-! ### Changes between two documents -/

/-- Sorted changes that do not overlap, from the position `a` of a document of `old` bytes and the
position `b` of one of `new` bytes on; between the changes the positions of both documents move
along. -/
def SortedChanges (old new : Nat) : Nat → Nat → List Change → Prop
  | a, b, [] => a ≤ old ∧ old + b = new + a
  | a, b, c :: rest =>
      a ≤ c.oldStart ∧ c.oldStart ≤ c.oldStop ∧ c.newStart ≤ c.newStop ∧
        c.newStart + a = c.oldStart + b ∧ SortedChanges old new c.oldStop c.newStop rest

/-- A position of the old document outside of the changes, and the one that it becomes. -/
def Moved : Nat → Nat → List Change → Nat → Nat → Prop
  | a, b, [], x, y => a ≤ x ∧ x + b = y + a
  | a, b, c :: rest, x, y =>
      (a ≤ x ∧ x ≤ c.oldStart ∧ x + b = y + a) ∨ Moved c.oldStop c.newStop rest x y

namespace SortedChanges

variable {old new : Nat}

theorem le {a b : Nat} {changes : List Change} (h : SortedChanges old new a b changes) :
    a ≤ old ∧ b ≤ new := by
  induction changes generalizing a b with
  | nil =>
      obtain ⟨ha, hb⟩ := h
      omega
  | cons c rest ih =>
      obtain ⟨h₁, h₂, h₃, h₄, h₅⟩ := h
      have hrest := ih h₅
      omega

theorem le_newStart {a b : Nat} {changes : List Change} (h : SortedChanges old new a b changes)
    {c : Change} (hc : c ∈ changes) : b ≤ c.newStart := by
  induction changes generalizing a b with
  | nil => cases hc
  | cons d rest ih =>
      obtain ⟨h₁, h₂, h₃, h₄, h₅⟩ := h
      rcases List.mem_cons.1 hc with rfl | hc
      · omega
      · have hrest := ih h₅ hc
        omega

theorem le_of_moved {a b : Nat} {changes : List Change} (h : SortedChanges old new a b changes)
    {x y : Nat} (hmoved : Moved a b changes x y) : b ≤ y := by
  induction changes generalizing a b with
  | nil =>
      obtain ⟨h₁, h₂⟩ := hmoved
      omega
  | cons c rest ih =>
      obtain ⟨h₁, h₂, h₃, h₄, h₅⟩ := h
      rcases hmoved with ⟨hx, -, hy⟩ | hmoved
      · omega
      · have hrest := ih h₅ hmoved
        omega

/-- Where the stretches between changes are: each starts in the old document, not before the place
from which on the changes are made, and what it has of the old document has room in the new one. -/
theorem stretch {a b : Nat} {afterEdit : Bool} {changes : List Change}
    (hold : old < 9223372036854775808) (hnew : new < 9223372036854775808)
    (h : SortedChanges old new a b changes) :
    ∀ s ∈ Fragment.stretches a ((a : Int) - b) afterEdit changes,
      s.start ≤ old ∧ (b : Int) ≤ s.start - s.shift ∧
        ((min s.stop old : Nat) : Int) - s.shift ≤ new := by
  induction changes generalizing a b afterEdit with
  | nil =>
      intro s hs
      obtain ⟨ha, hsize⟩ := h
      obtain rfl := List.mem_singleton.1 hs
      dsimp only
      omega
  | cons c rest ih =>
      intro s hs
      obtain ⟨h₁, h₂, h₃, h₄, h₅⟩ := h
      have hle := h₅.le
      rw [Fragment.stretches, signedPos_of_lt (by omega), signedPos_of_lt (by omega)] at hs
      rcases List.mem_cons.1 hs with rfl | hs
      · dsimp only
        omega
      · have hrest := ih h₅ s hs
        omega

/-- Inside of a stretch no change touches a position, and it is only the image of the one from which
the stretch moves it. -/
theorem untouched {a b : Nat} {afterEdit : Bool} {changes : List Change}
    (hold : old < 9223372036854775808) (hnew : new < 9223372036854775808)
    (h : SortedChanges old new a b changes) {s : Fragment.Stretch}
    (hs : s ∈ Fragment.stretches a ((a : Int) - b) afterEdit changes) {y : Nat}
    (hafter : s.afterEdit = true → (s.start : Int) - s.shift < y)
    (hbefore : s.beforeEdit = true → (y : Int) < s.stop - s.shift) :
    (∀ c ∈ changes, ¬ (c.newStart ≤ y ∧ y ≤ c.newStop)) ∧
      ∀ x, Moved a b changes x y → (x : Int) = y + s.shift := by
  induction changes generalizing a b afterEdit with
  | nil =>
      obtain rfl := List.mem_singleton.1 hs
      refine ⟨fun c hc => (by cases hc), ?_⟩
      rintro x ⟨hx, hy⟩
      dsimp only
      omega
  | cons c rest ih =>
      obtain ⟨h₁, h₂, h₃, h₄, h₅⟩ := h
      have hle := h₅.le
      rw [Fragment.stretches, signedPos_of_lt (by omega), signedPos_of_lt (by omega)] at hs
      rcases List.mem_cons.1 hs with rfl | hs
      · have hy := hbefore rfl
        dsimp only at hy ⊢
        refine ⟨?_, ?_⟩
        · intro d hd
          rcases List.mem_cons.1 hd with rfl | hd
          · omega
          · have hrest := h₅.le_newStart hd
            omega
        · rintro x (⟨-, -, hx⟩ | hmoved)
          · omega
          · have hrest := h₅.le_of_moved hmoved
            omega
      · have hedit : s.afterEdit = true := Fragment.afterEdit_of_mem_stretches hs
        have hy := hafter hedit
        have hstretch := (h₅.stretch hold hnew s hs).2.1
        obtain ⟨hchanges, himage⟩ := ih h₅ hs
        refine ⟨?_, ?_⟩
        · intro d hd
          rcases List.mem_cons.1 hd with rfl | hd
          · omega
          · exact hchanges d hd
        · rintro x (⟨-, hx, hmoved⟩ | hmoved)
          · omega
          · exact himage x hmoved

end SortedChanges

/-! ### Batches -/

/-- Changes that are made at once, with the number of bytes of the document after them. -/
structure Batch where
  changes : List Change
  minGap : Nat := Fragment.defaultMinGap
  size : Nat

/-- A batch closes no open side of a fragment.  Where the stretch in front of the first change is
long enough, a fragment with an open start does not begin there, or lies inside of it; where the
stretch behind the last change is long enough, a fragment with an open end does not end there, or
lies inside of it and the changes do not move it. -/
structure Batch.Spares (b : Batch) (f : Fragment) : Prop where
  atStart : f.openStart = true → ∀ c ∈ b.changes.head?,
    c.oldStart < b.minGap ∨ c.oldStart ≤ f.start ∨ 0 < f.start ∧ f.stop < c.oldStart
  atEnd : f.openEnd = true → ∀ c ∈ b.changes.getLast?,
    maxPos - c.oldStop < b.minGap ∨ f.stop ≤ c.oldStop ∨
      c.oldStop < f.start ∧ c.newStop = c.oldStop

/-- The fragments after a batch. -/
def Batch.apply (b : Batch) (fragments : List Fragment) : List Fragment :=
  Fragment.applyChanges fragments b.changes b.minGap

/-- The fragments after batches, one after the other. -/
def Batch.applyAll (batches : List Batch) (fragments : List Fragment) : List Fragment :=
  batches.foldl (fun fs b => b.apply fs) fragments

/-- The positions at text that was changed, after further changes. -/
def touch (T : Nat → Prop) (changes : List Change) (y : Nat) : Prop :=
  (∃ c ∈ changes, c.newStart ≤ y ∧ y ≤ c.newStop) ∨ ∃ x, T x ∧ Moved 0 0 changes x y

/-- The positions at text that some batch has changed. -/
def touched (batches : List Batch) : Nat → Prop :=
  batches.foldl (fun T b => touch T b.changes) fun _ => False

/-- Fragments whose sides at changed text are open. -/
def OpensTouched (T : Nat → Prop) (fragments : List Fragment) : Prop :=
  ∀ f ∈ fragments, (T f.start → f.openStart = true) ∧ (T f.stop → f.openEnd = true)

/-- Fragments that are ranges of a document. -/
def InDocument (size : Nat) (fragments : List Fragment) : Prop :=
  ∀ f ∈ fragments, f.start ≤ f.stop ∧ f.stop ≤ size

/-! ### One batch -/

section OneBatch

variable {b : Batch} {old : Nat} {f piece : Fragment}

/-- A piece after some changes is what a stretch between them leaves. -/
theorem Fragment.IsPiece.leaves (h : f.IsPiece b.minGap b.changes piece)
    (hrange : f.start ≤ f.stop ∧ f.stop ≤ old) (hold : old < 9223372036854775808)
    (hnew : b.size < 9223372036854775808) (hsorted : SortedChanges old b.size 0 0 b.changes)
    (hsome : b.changes ≠ []) : ∃ s ∈ stretches 0 ((0 : Nat) - (0 : Nat)) false b.changes,
      b.minGap ≤ s.stop - s.start ∧ f.start < s.stop ∧ Leaves s f piece := by
  rw [IsPiece, if_neg hsome] at h
  obtain ⟨s, hs, hgap, hstart, hpiece⟩ := h
  obtain ⟨h₁, h₂, -⟩ := hsorted.stretch hold hnew s hs
  exact ⟨s, hs, hgap, hstart,
    leaves_of_mem_cut hpiece hrange.1 (by omega) (by omega) (by omega)⟩

/-- The pieces of a fragment are ranges of the new document. -/
theorem Fragment.IsPiece.range (h : f.IsPiece b.minGap b.changes piece)
    (hrange : f.start ≤ f.stop ∧ f.stop ≤ old) (hold : old < 9223372036854775808)
    (hnew : b.size < 9223372036854775808) (hsorted : SortedChanges old b.size 0 0 b.changes) :
    piece.start ≤ piece.stop ∧ piece.stop ≤ b.size := by
  by_cases hnone : b.changes = []
  · rw [IsPiece, if_pos hnone] at h
    rw [hnone] at hsorted
    obtain ⟨-, hsize⟩ := hsorted
    rw [h]
    omega
  · obtain ⟨s, hs, -, -, hleaves⟩ := h.leaves hrange hold hnew hsorted hnone
    obtain ⟨-, -, hroom⟩ := hsorted.stretch hold hnew s hs
    cases hleaves with
    | whole same start stop still =>
        rw [same]
        omega
    | part cut openStart openEnd lt start stop => omega

/-- **A batch that spares a fragment keeps its sides open.** -/
theorem Fragment.IsPiece.keeps_open (h : f.IsPiece b.minGap b.changes piece)
    (hrange : f.start ≤ f.stop ∧ f.stop ≤ old) (hold : old < 9223372036854775808)
    (hnew : b.size < 9223372036854775808) (hsorted : SortedChanges old b.size 0 0 b.changes)
    (hspares : b.Spares f) : (f.openStart = true → piece.openStart = true) ∧
      (f.openEnd = true → piece.openEnd = true) := by
  cases hchanges : b.changes with
  | nil =>
      rw [IsPiece, if_pos hchanges] at h
      rw [h]
      exact ⟨id, id⟩
  | cons c rest =>
      have hsome : b.changes ≠ [] := hchanges ▸ List.cons_ne_nil c rest
      obtain ⟨s, hs, hgap, hstart, hleaves⟩ := h.leaves hrange hold hnew hsorted hsome
      cases hleaves with
      | whole same start stop still =>
          rw [same]
          exact ⟨id, id⟩
      | part cut openStart openEnd lt start stop =>
          rw [hchanges] at hs
          refine ⟨?_, ?_⟩
          · intro hopen
            rw [openStart]
            cases hafter : s.afterEdit with
            | true => rfl
            | false =>
                -- The stretch is the one in front of the first change, and it cuts the fragment.
                have hspared := hspares.atStart hopen c (hchanges ▸ rfl)
                obtain rfl := first_stretch hs hafter
                dsimp only at hgap hstart cut
                omega
          · intro hopen
            rw [openEnd]
            cases hbefore : s.beforeEdit with
            | true => rfl
            | false =>
                obtain ⟨last, hlast, rfl⟩ := last_stretch hs hbefore
                have hspared := hspares.atEnd hopen last (hchanges ▸ hlast)
                have hmax : maxPos = 18446744073709551615 := rfl
                dsimp only at hgap start stop cut
                rcases hspared with hshort | hleft | ⟨hright, hstill⟩
                · omega
                · omega
                · rw [hstill] at cut
                  omega

/-- Without changes the positions at changed text are those from before. -/
theorem touch_nil {T : Nat → Prop} {y : Nat} (h : touch T [] y) : T y := by
  rcases h with ⟨c, hc, -⟩ | ⟨x, hx, -, hxy⟩
  · cases hc
  · obtain rfl : x = y := by omega
    exact hx

/-- A position inside of a stretch is at changed text only if it was so before. -/
theorem touch_inside {T : Nat → Prop} {s : Fragment.Stretch} {x y : Nat}
    (hold : old < 9223372036854775808)
    (hnew : b.size < 9223372036854775808) (hsorted : SortedChanges old b.size 0 0 b.changes)
    (hs : s ∈ Fragment.stretches 0 ((0 : Nat) - (0 : Nat)) false b.changes)
    (hafter : s.afterEdit = true → (s.start : Int) - s.shift < y)
    (hbefore : s.beforeEdit = true → (y : Int) < s.stop - s.shift) (hxy : (x : Int) = y + s.shift)
    (htouch : touch T b.changes y) : T x := by
  obtain ⟨hchanges, hmoved⟩ := hsorted.untouched hold hnew hs hafter hbefore
  rcases htouch with ⟨c, hc, hy⟩ | ⟨x', hx', hy⟩
  · exact absurd hy (hchanges c hc)
  · have heq := hmoved x' hy
    obtain rfl : x' = x := by omega
    exact hx'

/-- A piece that a batch leaves of a fragment whose sides at changed text are open has open sides at
changed text, if the batch spares the fragment. -/
theorem Fragment.IsPiece.opens {T : Nat → Prop} (h : f.IsPiece b.minGap b.changes piece)
    (hrange : f.start ≤ f.stop ∧ f.stop ≤ old) (hold : old < 9223372036854775808)
    (hnew : b.size < 9223372036854775808) (hsorted : SortedChanges old b.size 0 0 b.changes)
    (hspares : b.Spares f) (hopens : (T f.start → f.openStart = true) ∧
      (T f.stop → f.openEnd = true)) :
    (touch T b.changes piece.start → piece.openStart = true) ∧
      (touch T b.changes piece.stop → piece.openEnd = true) := by
  obtain ⟨hkeepStart, hkeepEnd⟩ := h.keeps_open hrange hold hnew hsorted hspares
  by_cases hnone : b.changes = []
  · rw [IsPiece, if_pos hnone] at h
    rw [h, hnone]
    exact ⟨fun hy => hopens.1 (touch_nil hy), fun hy => hopens.2 (touch_nil hy)⟩
  · obtain ⟨s, hs, -, hstart, hleaves⟩ := h.leaves hrange hold hnew hsorted hnone
    have himage : ∀ {x y : Nat}, (s.afterEdit = true → (s.start : Int) - s.shift < y) →
        (s.beforeEdit = true → (y : Int) < s.stop - s.shift) → (x : Int) = y + s.shift →
        touch T b.changes y → T x := touch_inside hold hnew hsorted hs
    cases hleaves with
    | whole same start stop still =>
        rw [same]
        exact ⟨fun hy => hopens.1 (himage (by omega) (by omega) (by omega) hy),
          fun hy => hopens.2 (himage (by omega) (by omega) (by omega) hy)⟩
    | part cut openStart openEnd lt start stop =>
        refine ⟨?_, ?_⟩
        · intro hy
          cases hafter : s.afterEdit with
          | true => rw [openStart, hafter]
          | false =>
              obtain ⟨c, rest, hchanges⟩ := List.exists_cons_of_ne_nil hnone
              have hfirst := first_stretch (hchanges ▸ hs) hafter
              refine hkeepStart (hopens.1 (himage ?_ ?_ ?_ hy))
              · intro hedit
                rw [hafter] at hedit
                cases hedit
              · intro _
                rw [hfirst] at start hstart ⊢
                dsimp only at start hstart ⊢
                omega
              · rw [hfirst] at start ⊢
                dsimp only at start ⊢
                omega
        · intro hy
          cases hbefore : s.beforeEdit with
          | true => rw [openEnd, hbefore]
          | false =>
              obtain ⟨c, rest, hchanges⟩ := List.exists_cons_of_ne_nil hnone
              obtain ⟨last, -, hlast⟩ := last_stretch (hchanges ▸ hs) hbefore
              have hmax : s.stop = 18446744073709551615 := by
                rw [hlast]
                rfl
              refine hkeepEnd (hopens.2 (himage ?_ ?_ ?_ hy))
              · omega
              · intro hedit
                rw [hbefore] at hedit
                cases hedit
              · omega

end OneBatch

namespace Batch

/-- After a batch fragments of the old document are fragments of the new one. -/
theorem inDocument_apply {b : Batch} {old : Nat} {fragments : List Fragment}
    (hrange : InDocument old fragments) (hold : old < 9223372036854775808)
    (hnew : b.size < 9223372036854775808) (hsorted : SortedChanges old b.size 0 0 b.changes) :
    InDocument b.size (b.apply fragments) := by
  intro piece hpiece
  obtain ⟨f, hf, hpiece⟩ := Fragment.isPiece_of_mem_applyChanges piece hpiece
  exact hpiece.range (hrange f hf) hold hnew hsorted

/-- **One batch leaves all sides at changed text open**, those at text that it has changed itself
and those that were open before. -/
theorem opensTouched_apply {b : Batch} {old : Nat} {fragments : List Fragment} {T : Nat → Prop}
    (hrange : InDocument old fragments) (hold : old < 9223372036854775808)
    (hnew : b.size < 9223372036854775808) (hsorted : SortedChanges old b.size 0 0 b.changes)
    (hspares : ∀ f ∈ fragments, b.Spares f) (hopens : OpensTouched T fragments) :
    OpensTouched (touch T b.changes) (b.apply fragments) := by
  intro piece hpiece
  obtain ⟨f, hf, hpiece⟩ := Fragment.isPiece_of_mem_applyChanges piece hpiece
  exact hpiece.opens (hrange f hf) hold hnew hsorted (hspares f hf) (hopens f hf)

/-! ### Several batches -/

/-- Batches of sorted changes, the first of which is made to a document of `old` bytes; positions
are signed numbers of 64 bits. -/
def Consistent : Nat → List Batch → Prop
  | old, [] => old < 9223372036854775808
  | old, b :: rest =>
      old < 9223372036854775808 ∧ SortedChanges old b.size 0 0 b.changes ∧ Consistent b.size rest

/-- Each batch spares the fragments that are there before it. -/
def SpareAll : List Batch → List Fragment → Prop
  | [], _ => True
  | b :: rest, fragments => (∀ f ∈ fragments, b.Spares f) ∧ SpareAll rest (b.apply fragments)

theorem Consistent.lt {old : Nat} {batches : List Batch} (h : Consistent old batches) :
    old < 9223372036854775808 := by
  cases batches with
  | nil => exact h
  | cons b rest => exact h.1

/-- Sides at changed text are open after all batches if they were before them. -/
theorem opensTouched_applyAll {old : Nat} {batches : List Batch} {fragments : List Fragment}
    {T : Nat → Prop} (hrange : InDocument old fragments) (hsorted : Consistent old batches)
    (hspares : SpareAll batches fragments) (hopens : OpensTouched T fragments) :
    OpensTouched (batches.foldl (fun T b => touch T b.changes) T) (applyAll batches fragments) := by
  induction batches generalizing old fragments T with
  | nil => exact hopens
  | cons b rest ih =>
      obtain ⟨hold, hchanges, hrest⟩ := hsorted
      obtain ⟨hspare, hspares⟩ := hspares
      exact ih (inDocument_apply hrange hold hrest.lt hchanges) hrest hspares
        (opensTouched_apply hrange hold hrest.lt hchanges hspare hopens)

/-- What a batch within a run leaves are pieces of the fragments before it, with open sides where
these had them. -/
theorem keeps_open_within {old : Nat} {before rest : List Batch} {b : Batch}
    {fragments : List Fragment} (hrange : InDocument old fragments)
    (hsorted : Consistent old (before ++ b :: rest))
    (hspares : SpareAll (before ++ b :: rest) fragments) :
    ∀ piece ∈ b.apply (applyAll before fragments),
      (∃ f ∈ applyAll before fragments, f.IsPiece b.minGap b.changes piece) ∧
      ∀ f ∈ applyAll before fragments, f.IsPiece b.minGap b.changes piece →
        (f.openStart = true → piece.openStart = true) ∧
        (f.openEnd = true → piece.openEnd = true) := by
  induction before generalizing old fragments with
  | nil =>
      obtain ⟨hold, hchanges, hrest⟩ := hsorted
      intro piece hpiece
      refine ⟨Fragment.isPiece_of_mem_applyChanges piece hpiece, ?_⟩
      intro f hf h
      exact h.keeps_open (hrange f hf) hold hrest.lt hchanges (hspares.1 f hf)
  | cons first before ih =>
      obtain ⟨hold, hchanges, hrest⟩ := hsorted
      exact ih (inDocument_apply hrange hold hrest.lt hchanges) hrest hspares.2

/-- **Sides at changed text stay open.**  If batches of sorted changes spare the fragments that they
are applied to, each of them keeps open sides open, and in the end every side at text that some
batch has changed is open. -/
theorem applyAll_keeps_open {size : Nat} {batches : List Batch} {fragments : List Fragment}
    (hrange : InDocument size fragments) (hsorted : Consistent size batches)
    (hspares : SpareAll batches fragments) :
    (∀ before b rest, batches = before ++ b :: rest →
      ∀ piece ∈ b.apply (applyAll before fragments),
        (∃ f ∈ applyAll before fragments, f.IsPiece b.minGap b.changes piece) ∧
        ∀ f ∈ applyAll before fragments, f.IsPiece b.minGap b.changes piece →
          (f.openStart = true → piece.openStart = true) ∧
          (f.openEnd = true → piece.openEnd = true)) ∧
      ∀ f ∈ applyAll batches fragments,
        (touched batches f.start → f.openStart = true) ∧
        (touched batches f.stop → f.openEnd = true) := by
  refine ⟨?_, ?_⟩
  · rintro before b rest rfl
    exact keeps_open_within hrange hsorted hspares
  · have hnone : OpensTouched (fun _ => False) fragments :=
      fun _ _ => ⟨fun h => h.elim, fun h => h.elim⟩
    exact opensTouched_applyAll hrange hsorted hspares hnone

/-- A tree for a thousand bytes. -/
def thousandBytes : Tree := .make .none [] 1000 []

/-- Bytes are added at one place, and one more behind them. -/
def typing : List Batch :=
  [⟨[⟨500, 510, 500, 520⟩], 128, 1010⟩, ⟨[⟨520, 520, 520, 521⟩], 128, 1011⟩]

/-- The hypotheses hold where one goes on typing. -/
theorem applyAll_keeps_open_typing :
    InDocument 1000 (Fragment.addTree thousandBytes [] false) ∧ Consistent 1000 typing ∧
      SpareAll typing (Fragment.addTree thousandBytes [] false) ∧
      ∀ f ∈ applyAll typing (Fragment.addTree thousandBytes [] false),
        (touched typing f.start → f.openStart = true) ∧
        (touched typing f.stop → f.openEnd = true) := by
  have hrange : InDocument 1000 (Fragment.addTree thousandBytes [] false) := by
    intro f hf
    obtain rfl := List.mem_singleton.1 hf
    decide
  have hsorted : Consistent 1000 typing := by
    simp [Consistent, typing, SortedChanges]
  have hspares : SpareAll typing (Fragment.addTree thousandBytes [] false) := by
    refine ⟨?_, ?_, trivial⟩
    · intro f hf
      obtain rfl := List.mem_singleton.1 hf
      exact ⟨fun h => (by cases h), fun h => (by cases h)⟩
    · intro f hf
      have hpieces : apply ⟨[⟨500, 510, 500, 520⟩], 128, 1010⟩
          (Fragment.addTree thousandBytes [] false) =
          [⟨0, 500, thousandBytes, 0, false, true⟩, ⟨520, 1010, thousandBytes, -10, true, false⟩] :=
        rfl
      rw [hpieces] at hf
      rcases List.mem_cons.1 hf with rfl | hf
      · refine ⟨fun h => (by cases h), fun _ c hc => ?_⟩
        obtain rfl := Option.some.inj hc
        exact .inr (.inl (by decide))
      · obtain rfl := List.mem_singleton.1 hf
        refine ⟨fun _ c hc => ?_, fun h => (by cases h)⟩
        obtain rfl := Option.some.inj hc
        exact .inr (.inl (by decide))
  exact ⟨hrange, hsorted, hspares, (applyAll_keeps_open hrange hsorted hspares).2⟩

/-- Bytes are replaced at one place, and then some are inserted far behind it. -/
def farApart : List Batch :=
  [⟨[⟨300, 310, 300, 310⟩], 128, 1000⟩, ⟨[⟨900, 900, 900, 910⟩], 128, 1010⟩]

/-- Where a later batch spares no fragment, it closes a side that an earlier one has opened: the
second fragment begins at text that the first batch has changed, and its start is not open. -/
theorem applyAll_closes_farApart :
    Consistent 1000 farApart ∧ touched farApart 310 ∧
      (applyAll (farApart.take 1) (Fragment.addTree thousandBytes [] false)).map
          (fun f => (f.start, f.stop, f.openStart, f.openEnd)) =
        [(0, 300, false, true), (310, 1000, true, false)] ∧
      (applyAll farApart (Fragment.addTree thousandBytes [] false)).map
          (fun f => (f.start, f.stop, f.openStart, f.openEnd)) =
        [(0, 300, false, true), (310, 900, false, true), (910, 1010, true, false)] := by
  refine ⟨by simp [Consistent, farApart, SortedChanges], ?_, rfl, rfl⟩
  exact .inr ⟨310, .inl ⟨_, List.mem_cons_self, by decide⟩, .inl (by decide)⟩

end Batch

end IncrementalLR
