/-
**Fragments show unchanged text.**

Edits replace ranges of an old document and leave the text between them as it is.  Cutting the
fragment of a whole tree at the edits leaves pieces of which each lies between two edits; in such a
piece the new document shows the bytes of the old one, moved by the offset of the piece.

Main definitions:

* `Edited` — the new document is the old one with some changes made to it;
* `Fragment.Faithful` — a fragment shows unchanged text, and its open sides border the changes.

Main results:

* `Fragment.faithful_applyChanges` — **the fragments of a tree are faithful after any edits**.
-/

import IncrementalLR.Input.Document
import IncrementalLR.Tree.Fragment

set_option relaxedAutoImplicit false
set_option autoImplicit false

namespace IncrementalLR

/-- The bytes of `new` from `b` on are those of `old` from `a` on with changes made to them: the
changes are sorted and do not overlap, their ranges in both documents belong together, and the text
between them is the same. -/
def Edited (old new : Document) : Nat → Nat → List Change → Prop
  | a, b, [] => a ≤ old.size ∧ b ≤ new.size ∧ ∀ i, new.bytes[b + i]? = old.bytes[a + i]?
  | a, b, c :: rest =>
      a ≤ c.oldStart ∧ c.oldStart ≤ c.oldStop ∧ c.newStart ≤ c.newStop ∧
        c.newStart + a = c.oldStart + b ∧
        (∀ i, a + i < c.oldStart → new.bytes[b + i]? = old.bytes[a + i]?) ∧
        Edited old new c.oldStop c.newStop rest

namespace Edited

variable {old new : Document}

theorem old_le {a b : Nat} {changes : List Change} (h : Edited old new a b changes) :
    a ≤ old.size := by
  induction changes generalizing a b with
  | nil => exact h.1
  | cons c rest ih =>
      obtain ⟨h₁, h₂, -, -, -, h₃⟩ := h
      have := ih h₃
      omega

theorem new_le {a b : Nat} {changes : List Change} (h : Edited old new a b changes) :
    b ≤ new.size := by
  induction changes generalizing a b with
  | nil => exact h.2.1
  | cons c rest ih =>
      obtain ⟨h₁, h₂, h₃, h₄, -, h₅⟩ := h
      have := ih h₅
      omega

/-- Behind the last change both documents have equally many bytes. -/
theorem rest_eq {a b : Nat} (h : Edited old new a b []) : old.size - a = new.size - b := by
  obtain ⟨ha, hb, h⟩ := h
  have h₁ := h (old.size - a)
  have h₂ := h (new.size - b)
  have e₁ : a + (old.size - a) = old.bytes.size := by unfold Document.size at *; omega
  have e₂ : b + (new.size - b) = new.bytes.size := by unfold Document.size at *; omega
  rw [e₁, Array.getElem?_eq_none (Nat.le_refl _), Array.getElem?_eq_none_iff] at h₁
  rw [e₂, Array.getElem?_eq_none (Nat.le_refl _), eq_comm, Array.getElem?_eq_none_iff] at h₂
  unfold Document.size at *
  omega

/-- All changes lie behind the place from which on they are made. -/
theorem le_newStart {a b : Nat} {changes : List Change} (h : Edited old new a b changes)
    {c : Change} (hc : c ∈ changes) : b ≤ c.newStart ∧ c.newStart ≤ c.newStop := by
  induction changes generalizing a b with
  | nil => simp at hc
  | cons d rest ih =>
      obtain ⟨h₁, h₂, h₃, h₄, -, h₅⟩ := h
      rcases List.mem_cons.1 hc with rfl | hc
      · omega
      · have := ih h₅ hc
        omega

end Edited

namespace Fragment

/-- A fragment shows the text of the old document, moved by its offset.  No change reaches into it;
an end that is not open is the end of both documents, and a start that is not open has no change
before it. -/
structure Faithful (old new : Document) (changes : List Change) (f : Fragment) : Prop where
  start_le : f.start ≤ f.stop
  old_start : 0 ≤ f.start + f.offset
  old_stop : f.stop + f.offset ≤ old.size
  new_stop : f.stop ≤ new.size
  same : ∀ x, f.start ≤ x → x < f.stop → new.bytes[x]? = old.bytes[(x + f.offset).toNat]?
  apart : ∀ c ∈ changes, c.newStop ≤ f.start ∨ f.stop ≤ c.newStart
  closedStart : f.openStart = false → ∀ c ∈ changes, f.stop ≤ c.newStart
  closedEnd : f.openEnd = false → f.stop = new.size ∧ f.stop + f.offset = old.size

/-! ### Cutting the fragment of a whole tree -/

/-- The fragment of a whole tree, of which a stretch cuts its own part out. -/
def whole (t : Tree) : Fragment := { start := 0, stop := t.length, tree := t }

theorem addTree_eq_whole (t : Tree) : addTree t [] false = [whole t] := rfl

theorem cut_whole {t : Tree} {s : Stretch} (hlen : t.length < 9223372036854775808)
    (hle : s.start ≤ t.length) (hshift : 0 ≤ s.start - s.shift) :
    ∀ f ∈ (whole t).cut s, f.tree = t ∧ f.offset = s.shift ∧ (f.start : Int) = s.start - s.shift ∧
      (f.stop : Int) = (min s.stop t.length : Nat) - s.shift ∧ f.start < f.stop ∧
      f.openStart = s.afterEdit ∧ f.openEnd = s.beforeEdit := by
  intro f hf
  have hstart : signedPos (max s.start 0) = s.start := by
    rw [Nat.max_eq_left (Nat.zero_le _), signedPos_of_lt (by omega)]
  have hstop : signedPos (min s.stop t.length) = (min s.stop t.length : Nat) :=
    signedPos_of_lt (by omega)
  simp only [cut, whole, Nat.zero_le, decide_true, Bool.true_or, if_true, hstart, hstop] at hf
  split at hf
  · rename_i hlt
    obtain rfl := List.mem_singleton.1 hf
    have h₁ : ((posOfSigned (s.start - s.shift) : Nat) : Int) = s.start - s.shift := by
      unfold posOfSigned
      split <;> omega
    have h₂ : ((posOfSigned ((min s.stop t.length : Nat) - s.shift) : Nat) : Int) =
        (min s.stop t.length : Nat) - s.shift := by
      unfold posOfSigned
      split <;> omega
    exact ⟨rfl, by simp, h₁, h₂, by dsimp only; omega, rfl, rfl⟩
  · simp at hf

/-- What a stretch leaves of the fragment of a whole tree is nothing, or the fragment itself. -/
theorem cutStretch_whole (minGap : Nat) (s : Stretch) (t : Tree) :
    (∀ f ∈ (cutStretch minGap s [whole t]).1, f ∈ (whole t).cut s) ∧
      ((cutStretch minGap s [whole t]).2 = [whole t] ∨
        (cutStretch minGap s [whole t]).2 = [] ∧ t.length ≤ s.stop) := by
  unfold cutStretch
  split
  · unfold cutAll
    split
    · simp
    · split
      · simp
      · rename_i h
        refine ⟨by simp [cutAll], Or.inr ⟨by simp [cutAll], ?_⟩⟩
        simpa [whole] using h
  · simp

theorem cutStretch_nil (minGap : Nat) (s : Stretch) : cutStretch minGap s [] = ([], []) := by
  unfold cutStretch
  split <;> rfl

theorem cutStretches_nil (minGap start : Nat) (shift : Int) (afterEdit : Bool)
    (changes : List Change) : cutStretches minGap start shift afterEdit changes [] = [] := by
  induction changes generalizing start shift afterEdit with
  | nil => simp [cutStretches, cutStretch_nil]
  | cons c rest ih => simp [cutStretches, cutStretch_nil, ih]

/-! ### Faithfulness -/

section Faithfulness

variable {old new : Document} {t : Tree}

/-- The piece of a tree's fragment between the place `a` of the old document, which is the place `b`
of the new one, and the next change. -/
theorem faithful_between {a b : Nat} {c : Change} {before rest : List Change} {afterEdit : Bool}
    (hlen : t.length = old.size) (hold : old.size < 9223372036854775808)
    (he : Edited old new a b (c :: rest)) (hbefore : ∀ d ∈ before, d.newStop ≤ b)
    (hafter : afterEdit = false → before = []) {f : Fragment}
    (hf : f ∈ (whole t).cut ⟨a, c.oldStart, (a : Int) - b, afterEdit, true⟩) :
    f.tree = t ∧ f.Faithful old new (before ++ c :: rest) := by
  obtain ⟨h₁, h₂, h₃, h₄, hsame, h₅⟩ := he
  have hstop := h₅.old_le
  have hnew := h₅.new_le
  obtain ⟨ht, hoff, hfs, hfe, hlt, ho, hoe⟩ :=
    cut_whole (by omega) (by dsimp only; omega) (by dsimp only; omega) f hf
  dsimp only at hoff hfs hfe ho hoe
  have hle : ∀ d ∈ c :: rest, f.stop ≤ d.newStart := by
    intro d hd
    rcases List.mem_cons.1 hd with rfl | hd
    · omega
    · have := h₅.le_newStart hd
      omega
  refine ⟨ht, ⟨by omega, by omega, by omega, by omega, ?_, ?_, ?_, ?_⟩⟩
  · intro x hx hx'
    have key := hsame (x - b) (by omega)
    rwa [show b + (x - b) = x by omega, show a + (x - b) = (x + f.offset).toNat by omega] at key
  · intro d hd
    rcases List.mem_append.1 hd with hd | hd
    · have := hbefore d hd
      exact Or.inl (by omega)
    · exact Or.inr (hle d hd)
  · intro hopen d hd
    rw [hafter (ho.symm.trans hopen)] at hd
    exact hle d hd
  · intro hopen
    rw [hoe] at hopen
    simp at hopen

/-- The piece of a tree's fragment behind the last change. -/
theorem faithful_behind {a b : Nat} {before : List Change} {afterEdit : Bool}
    (hlen : t.length = old.size) (hold : old.size < 9223372036854775808)
    (he : Edited old new a b []) (hbefore : ∀ d ∈ before, d.newStop ≤ b)
    (hafter : afterEdit = false → before = []) {f : Fragment}
    (hf : f ∈ (whole t).cut ⟨a, maxPos, (a : Int) - b, afterEdit, false⟩) :
    f.tree = t ∧ f.Faithful old new before := by
  have hsize := he.rest_eq
  obtain ⟨ha, hb, hsame⟩ := he
  obtain ⟨ht, hoff, hfs, hfe, hlt, ho, -⟩ :=
    cut_whole (by omega) (by dsimp only; omega) (by dsimp only; omega) f hf
  dsimp only at hoff hfs hfe ho
  have hmin : min maxPos t.length = old.size := by unfold maxPos; omega
  rw [hmin] at hfe
  refine ⟨ht, ⟨by omega, by omega, by omega, by omega, ?_, ?_, ?_, fun _ => by omega⟩⟩
  · intro x hx hx'
    have key := hsame (x - b)
    rwa [show b + (x - b) = x by omega, show a + (x - b) = (x + f.offset).toNat by omega] at key
  · intro d hd
    have := hbefore d hd
    exact Or.inl (by omega)
  · intro hopen d hd
    rw [hafter (ho.symm.trans hopen)] at hd
    simp at hd

/-- The pieces of a tree's fragment from the place `a` of the old document on, which is the place
`b` of the new one; the changes `before` have been made. -/
theorem faithful_cutStretches {minGap a b : Nat} {before rest : List Change} {afterEdit : Bool}
    (hlen : t.length = old.size) (hold : old.size < 9223372036854775808)
    (hnew : new.size < 9223372036854775808) (he : Edited old new a b rest)
    (hbefore : ∀ d ∈ before, d.newStop ≤ b) (hafter : afterEdit = false → before = []) :
    ∀ f ∈ cutStretches minGap a ((a : Int) - b) afterEdit rest [whole t],
      f.tree = t ∧ f.Faithful old new (before ++ rest) := by
  induction rest generalizing a b before afterEdit with
  | nil =>
      intro f hf
      rw [List.append_nil]
      refine faithful_behind hlen hold he hbefore hafter ?_
      exact (cutStretch_whole minGap _ t).1 f hf
  | cons c rest ih =>
      intro f hf
      have hrest := he
      obtain ⟨h₁, h₂, h₃, h₄, -, h₅⟩ := he
      have hole := h₅.old_le
      have hnle := h₅.new_le
      rcases List.mem_append.1 hf with hf | hf
      · refine faithful_between hlen hold hrest hbefore hafter ?_
        exact (cutStretch_whole minGap _ t).1 f hf
      · rcases (cutStretch_whole minGap ⟨a, c.oldStart, (a : Int) - b, afterEdit, true⟩ t).2 with
          heq | ⟨heq, -⟩
        · rw [heq, signedPos_of_lt (by omega), signedPos_of_lt (by omega)] at hf
          have hmade : ∀ d ∈ before ++ [c], d.newStop ≤ c.newStop := by
            intro d hd
            rcases List.mem_append.1 hd with hd | hd
            · have := hbefore d hd
              omega
            · obtain rfl := List.mem_singleton.1 hd
              exact Nat.le_refl _
          have key := ih h₅ hmade (by simp) f hf
          rwa [List.append_assoc] at key
        · rw [heq, cutStretches_nil] at hf
          simp at hf

/-- **The fragments of a tree are faithful after any edits**, whatever gap is asked for. -/
theorem faithful_applyChanges {minGap : Nat} {changes : List Change}
    (hlen : t.length = old.size) (hold : old.size < 9223372036854775808)
    (hnew : new.size < 9223372036854775808) (he : Edited old new 0 0 changes) :
    ∀ f ∈ applyChanges (addTree t [] false) changes minGap,
      f.tree = t ∧ f.Faithful old new changes := by
  intro f hf
  rw [addTree_eq_whole] at hf
  cases changes with
  | nil =>
      have hsize := he.rest_eq
      obtain rfl : f = whole t := by simpa using hf
      refine ⟨rfl, ⟨by simp [whole], by simp [whole], by simp [whole, hlen],
        by dsimp only [whole]; omega, ?_, by simp, by simp, fun _ => ?_⟩⟩
      · intro x _ _
        have key := he.2.2 x
        simpa [whole] using key
      · dsimp only [whole]
        omega
  | cons c rest =>
      have hcut : f ∈ cutStretches minGap 0 ((0 : Nat) - (0 : Nat)) false (c :: rest) [whole t] := hf
      have hmade : ∀ d ∈ ([] : List Change), d.newStop ≤ 0 := by simp
      exact faithful_cutStretches hlen hold hnew he hmade (fun _ => rfl) f hcut

end Faithfulness

end Fragment

end IncrementalLR
