/-
**Nodes that are offered for reuse cover unchanged text.**

A walk through fragments offers nodes of an older tree.  Whatever positions it was asked for before,
a node that it offers is a node of the older tree at the place that belongs to the position, and the
new document shows there the bytes from which the node was parsed, as well as those that were looked
at behind it.  Near an edit no node is offered: the walk keeps the look-ahead margin on both sides.

The cut of a tree near an open end enters only through its distance from that end
(`safeCutF_le`, `le_safeCutF`), so nothing depends on which nodes the search for it visits.

Main definitions:

* `Tree.Holds` — a tree has a node below its root at a place;
* `Tree.reach` — how far past its end a node depends on the text;
* `ReuseCursor.Sound` — what a walk knows about the fragment that it is in;
* `ReuseCursor.ask` — a walk after a list of questions.

Main results:

* `ReuseCursor.sound_ask` — a walk stays sound whatever it is asked;
* `ReuseCursor.offerAt_unchanged` — **an offered node covers unchanged text**.
-/

import IncrementalLR.Parse.Reuse
import IncrementalLR.Proofs.Fragments

set_option relaxedAutoImplicit false
set_option autoImplicit false

namespace IncrementalLR

/-- A tree has a node at a place below its root. -/
inductive Tree.Holds (t : Tree) : Nat → Tree → Prop
  | child {p : Nat} {c : Tree} : (p, c) ∈ t.children → t.Holds p c
  | deeper {q p : Nat} {u c : Tree} : t.Holds q u → (p, c) ∈ u.children → t.Holds (q + p) c

/-- How far past its end a node depends on the text: as far as was noted, else the margin. -/
def Tree.reach (t : Tree) : Nat := (t.numberProp? .lookAhead).getD lookAheadMargin

/-! ### The distance of a cut -/

/-- A cut towards the start keeps the margin. -/
theorem safeCutF_le (length pos fuel : Nat) (c : Cursor) (enter : Bool) :
    safeCutF length pos true fuel c enter ≤ pos - lookAheadMargin := by
  induction fuel generalizing c enter with
  | zero => simp [safeCutF]
  | succ fuel ih =>
      cases enter with
      | true =>
          simp only [safeCutF]
          exact ih _ _
      | false =>
          simp only [safeCutF, if_true]
          split
          · exact Nat.min_le_right _ _
          · split
            · exact ih _ _
            · split
              · exact ih _ _
              · exact Nat.zero_le _

/-- A cut towards the end keeps the margin, as far as the tree reaches. -/
theorem le_safeCutF (length pos fuel : Nat) (c : Cursor) (enter : Bool) :
    min length (pos + lookAheadMargin) ≤ safeCutF length pos false fuel c enter ∧
      safeCutF length pos false fuel c enter ≤ length := by
  induction fuel generalizing c enter with
  | zero =>
      simp only [safeCutF]
      exact ⟨Nat.min_le_left _ _, Nat.le_refl _⟩
  | succ fuel ih =>
      cases enter with
      | true =>
          simp only [safeCutF]
          exact ih _ _
      | false =>
          simp only [safeCutF]
          split
          · simp only [Bool.false_eq_true, if_false]
            omega
          · split
            · exact ih _ _
            · split
              · exact ih _ _
              · simp only [Bool.false_eq_true, if_false]
                exact ⟨Nat.min_le_left _ _, Nat.le_refl _⟩

namespace ReuseCursor

/-! ### What a walk knows -/

/-- The children that are left of an open tree are nodes of the tree of a fragment. -/
def OpenIn (f : Fragment) (o : OpenTree) : Prop :=
  ∀ c ∈ o.rest, ∃ q : Nat, (q : Int) = o.start + c.1 + f.offset ∧ f.tree.Holds q c.2

/-- What a walk knows about the fragment that it is in: the safe part lies inside of it and keeps
the margin at open sides, and the walk is inside of nodes of its tree. -/
structure InFragment (c : ReuseCursor) (f : Fragment) : Prop where
  start_le : f.start ≤ c.safeStart
  start_lt : c.safeStart < 9223372036854775808
  stop_le : c.safeStop ≤ f.stop
  afterOpen : f.openStart = true → ∀ x : Int, c.safeStart ≤ x → x + f.offset < f.tree.length →
    f.start + lookAheadMargin ≤ x
  beforeOpen : f.openEnd = true → ∀ x : Int, 0 < x → 0 < x + f.offset → x ≤ c.safeStop →
    x + lookAheadMargin ≤ f.stop
  inside : ∀ o ∈ c.trees, OpenIn f o

/-- What a walk through some fragments knows. -/
structure Sound (fragments : List Fragment) (c : ReuseCursor) : Prop where
  pending : ∀ f ∈ c.pending, f ∈ fragments
  current : ∀ f, c.fragment = some f → f ∈ fragments ∧ c.InFragment f

section Walk

variable {old new : Document} {changes : List Change} {fragments : List Fragment}

/-- Opening a fragment whose positions are below the signed bound. -/
theorem inFragment_openNext {c : ReuseCursor} {f : Fragment} {rest : List Fragment}
    (hsize : old.size + new.size < 9223372036854775808) (hlen : f.tree.length = old.size)
    (hf : f.Faithful old new changes) (hc : c.pending = f :: rest) : c.openNext.InFragment f := by
  have hns := hf.new_stop
  have hos := hf.old_stop
  have h0 := hf.old_start
  have hle := hf.start_le
  have hstart : (shiftPos f.start f.offset : Int) = f.start + f.offset := by
    unfold shiftPos
    rw [signedPos_of_lt (by omega)]
    omega
  have hstop : (shiftPos f.stop f.offset : Int) = f.stop + f.offset := by
    unfold shiftPos
    rw [signedPos_of_lt (by omega)]
    omega
  -- The cuts, with what is known of their distance.
  obtain ⟨hright, hright'⟩ := le_safeCutF f.tree.length (shiftPos f.start f.offset)
    (4 * f.tree.weight + 4)
    ((f.tree.cursor { includeAnonymous := true }).moveTo (shiftPos f.start f.offset) 0) true
  have hleft := safeCutF_le f.tree.length (shiftPos f.stop f.offset) (4 * f.tree.weight + 4)
    ((f.tree.cursor { includeAnonymous := true }).moveTo (shiftPos f.stop f.offset) 0) true
  change _ ≤ f.tree.safeCut (shiftPos f.start f.offset) false at hright
  change f.tree.safeCut (shiftPos f.start f.offset) false ≤ _ at hright'
  change f.tree.safeCut (shiftPos f.stop f.offset) true ≤ _ at hleft
  have hshift : ∀ cut : Nat, cut ≤ old.size →
      shiftPos cut (-f.offset) = ((cut : Int) - f.offset).toNat := by
    intro cut hcut
    unfold shiftPos
    rw [signedPos_of_lt (by omega)]
    rfl
  unfold openNext
  rw [hc]
  refine ⟨?_, ?_, ?_, ?_, ?_, ?_⟩
  · dsimp only
    split
    · rw [hshift _ (by omega)]
      omega
    · exact Nat.le_refl _
  · dsimp only
    split
    · rw [hshift _ (by omega)]
      omega
    · omega
  · dsimp only
    split
    · rw [hshift _ (by omega)]
      omega
    · exact Nat.le_refl _
  · intro hopen x hx hx'
    dsimp only at hx
    rw [if_pos hopen, hshift _ (by omega)] at hx
    omega
  · intro hopen x hx hx' hle
    dsimp only at hle
    rw [if_pos hopen, hshift _ (by omega)] at hle
    omega
  · intro o ho
    obtain rfl := List.mem_singleton.1 ho
    intro ch hch
    exact ⟨ch.1, by dsimp only; omega, .child hch⟩

/-- All fragments of a list are faithful, and their trees are as long as the old document. -/
def AllFaithful (old new : Document) (changes : List Change) (fragments : List Fragment) : Prop :=
  ∀ f ∈ fragments, f.tree.length = old.size ∧ f.Faithful old new changes

theorem sound_openNext {c : ReuseCursor} (hsize : old.size + new.size < 9223372036854775808)
    (hall : AllFaithful old new changes fragments) (hc : c.Sound fragments) :
    c.openNext.Sound fragments := by
  cases hp : c.pending with
  | nil =>
      refine ⟨?_, ?_⟩
      · simp [openNext, hp]
      · simp [openNext, hp]
  | cons f rest =>
      have hf : f ∈ fragments := hc.pending f (by simp [hp])
      refine ⟨?_, ?_⟩
      · intro g hg
        have hg : g ∈ rest := by simpa [openNext, hp] using hg
        exact hc.pending g (by simp [hp, hg])
      · intro g hg
        obtain rfl : f = g := by simpa [openNext, hp] using hg
        exact ⟨hf, inFragment_openNext hsize (hall f hf).1 (hall f hf).2 hp⟩

theorem sound_ofFragments (hsize : old.size + new.size < 9223372036854775808)
    (hall : AllFaithful old new changes fragments) : (ofFragments fragments).Sound fragments :=
  sound_openNext hsize hall ⟨fun _ hf => hf, by simp⟩

theorem sound_skipF {pos : Nat} (hsize : old.size + new.size < 9223372036854775808)
    (hall : AllFaithful old new changes fragments) (fuel : Nat) (c : ReuseCursor)
    (hc : c.Sound fragments) : (skipF pos fuel c).Sound fragments := by
  induction fuel generalizing c with
  | zero => exact hc
  | succ fuel ih =>
      simp only [skipF]
      split
      · exact ih _ (sound_openNext hsize hall hc)
      · exact hc

/-! ### One question -/

/-- A walk that is inside of other nodes of the fragment's tree, or has another place to look from,
knows the same about the fragment. -/
theorem InFragment.moved {c d : ReuseCursor} {f : Fragment} (h : c.InFragment f)
    (hs : d.safeStart = c.safeStart) (he : d.safeStop = c.safeStop)
    (ht : ∀ o ∈ d.trees, OpenIn f o) : d.InFragment f where
  start_le := hs ▸ h.start_le
  start_lt := hs ▸ h.start_lt
  stop_le := he ▸ h.stop_le
  afterOpen := hs ▸ h.afterOpen
  beforeOpen := he ▸ h.beforeOpen
  inside := ht

theorem Sound.moved {c d : ReuseCursor} (h : c.Sound fragments) (hp : d.pending = c.pending)
    (hf : d.fragment = c.fragment) (hs : d.safeStart = c.safeStart) (he : d.safeStop = c.safeStop)
    (ht : ∀ f, c.fragment = some f → ∀ o ∈ d.trees, OpenIn f o) : d.Sound fragments where
  pending := hp ▸ h.pending
  current := by
    intro f hd
    rw [hf] at hd
    exact ⟨(h.current f hd).1, (h.current f hd).2.moved hs he (ht f hd)⟩

/-- What a walk from a sound state gives: a sound state, and a node only if it starts at the
position that was asked for, in the safe part of the fragment. -/
theorem walkF_sound {pos : Nat} {f : Fragment}
    (hsize : old.size + new.size < 9223372036854775808)
    (hall : AllFaithful old new changes fragments) (fuel : Nat) (c : ReuseCursor)
    (hc : c.Sound fragments) (hf : c.fragment = some f) :
    (walkF f.stop pos fuel c).2.Sound fragments ∧
      ∀ t, (walkF f.stop pos fuel c).1 = some t →
        (walkF f.stop pos fuel c).2.fragment = some f ∧
          (∃ q : Nat, (q : Int) = signedPos pos + f.offset ∧ f.tree.Holds q t) ∧
          ¬ signedPos pos < signedPos c.safeStart ∧
          c.fits f.stop (signedPos pos + t.length) t = true := by
  induction fuel generalizing c with
  | zero => exact ⟨hc, by simp [walkF]⟩
  | succ fuel ih =>
      have hin := (hc.current f hf).2.inside
      -- The walk goes on from a state that differs in its open trees and its next start only.
      have onward : ∀ d : ReuseCursor, d.pending = c.pending → d.fragment = c.fragment →
          d.safeStart = c.safeStart → d.safeStop = c.safeStop → (∀ o ∈ d.trees, OpenIn f o) →
          d.Sound fragments := by
        intro d hp hd hs he ht
        refine hc.moved hp hd hs he fun g hg => ?_
        obtain rfl : f = g := Option.some.inj (hf.symm.trans hg)
        exact ht
      rw [walkF]
      split
      · exact ⟨sound_openNext hsize hall hc, by simp⟩
      · rename_i base outer heq
        rw [heq] at hin
        exact ih { c with trees := outer }
          (onward _ rfl rfl rfl rfl fun o ho => hin o (List.mem_cons_of_mem _ ho)) hf
      · rename_i base p t rest outer heq
        rw [heq] at hin
        have hhere := hin _ List.mem_cons_self
        have houter : ∀ o ∈ outer, OpenIn f o := fun o ho => hin o (List.mem_cons_of_mem _ ho)
        have hpassed : ∀ o ∈ (⟨base, rest⟩ :: outer : List OpenTree), OpenIn f o := by
          intro o ho
          rcases List.mem_cons.1 ho with rfl | ho
          · exact fun ch hch => hhere ch (List.mem_cons_of_mem _ hch)
          · exact houter o ho
        obtain ⟨q, hq, hholds⟩ := hhere (p, t) List.mem_cons_self
        dsimp only at hq
        dsimp only
        split
        · refine ⟨onward _ rfl rfl rfl rfl ?_, by simp⟩
          rw [heq]
          exact hin
        · split
          · exact ih _ (onward _ rfl rfl rfl rfl hpassed) hf
          · split
            · exact ⟨hc, by simp⟩
            · split
              · rename_i hlow hfits
                simp only [Bool.and_eq_true, decide_eq_true_eq] at hlow hfits
                refine ⟨hc, fun u hu => ?_⟩
                obtain rfl := Option.some.inj hu
                refine ⟨hf, ⟨q, by omega, hholds⟩, fun hlt => hlow ⟨hfits.1, ?_⟩, ?_⟩
                · rw [hfits.1]
                  exact hlt
                · rw [← hfits.1]
                  exact hfits.2
              · split
                · refine ih _ (onward _ rfl rfl rfl rfl ?_) hf
                  intro o ho
                  rcases List.mem_cons.1 ho with rfl | ho
                  · intro ch hch
                    refine ⟨q + ch.1, by dsimp only; omega, hholds.deeper hch⟩
                  · exact hpassed o ho
                · exact ih _ (onward _ rfl rfl rfl rfl hpassed) hf

/-- What an answer of a sound walk says: the walk stays sound, and a node is offered only from the
safe part of the fragment that the walk is in. -/
theorem offerAt_sound {c : ReuseCursor} (pos : Nat)
    (hsize : old.size + new.size < 9223372036854775808)
    (hall : AllFaithful old new changes fragments) (hc : c.Sound fragments) :
    (c.offerAt pos).2.Sound fragments ∧
      ∀ t, (c.offerAt pos).1 = some t → ∃ f, f ∈ fragments ∧ (c.offerAt pos).2.fragment = some f ∧
        (∃ q : Nat, (q : Int) = signedPos pos + f.offset ∧ f.tree.Holds q t) ∧
        ∃ d : ReuseCursor, d.InFragment f ∧ ¬ signedPos pos < signedPos d.safeStart ∧
          d.fits f.stop (signedPos pos + t.length) t = true := by
  unfold offerAt
  split
  · exact ⟨hc, by simp⟩
  · have hskip := @sound_skipF old new changes fragments pos hsize hall (c.pending.length + 1) c hc
    dsimp only
    split
    · exact ⟨hskip, by simp⟩
    · rename_i f hf
      obtain ⟨hsound, hgives⟩ := @walkF_sound old new changes fragments pos f hsize hall
        (skipF pos (c.pending.length + 1) c).steps _ hskip hf
      refine ⟨hsound, fun t ht => ?_⟩
      obtain ⟨hfrag, hq, hlow, hfits⟩ := hgives t ht
      obtain ⟨hmem, hin⟩ := hskip.current f hf
      exact ⟨f, hmem, hfrag, hq, _, hin, hlow, hfits⟩

/-! ### Any number of questions -/

/-- The walk after it was asked for the nodes at some positions, one after the other. -/
def ask (c : ReuseCursor) (positions : List Nat) : ReuseCursor :=
  positions.foldl (fun c pos => (c.offerAt pos).2) c

/-- A walk stays sound whatever it is asked. -/
theorem sound_ask {c : ReuseCursor} (hsize : old.size + new.size < 9223372036854775808)
    (hall : AllFaithful old new changes fragments) (hc : c.Sound fragments)
    (positions : List Nat) : (c.ask positions).Sound fragments := by
  induction positions generalizing c with
  | nil => exact hc
  | cons pos rest ih => exact ih (offerAt_sound pos hsize hall hc).1

/-- A node that fits into a faithful fragment covers unchanged text, and so does its look-ahead. -/
theorem same_of_fits {c : ReuseCursor} {f : Fragment} {t : Tree} {pos q : Nat}
    (hf : f.Faithful old new changes) (hin : c.InFragment f) (hnew : new.size < 9223372036854775808)
    (hq : (q : Int) = pos + f.offset) (hlow : c.safeStart ≤ pos) (hne : t.length ≠ 0)
    (hfits : c.fits f.stop (pos + t.length) t = true) {i : Nat} (hi : i < t.length + t.reach) :
    new.bytes[pos + i]? = old.bytes[q + i]? := by
  have hns := hf.new_stop
  have hsafe := hin.stop_le
  have hstart := hin.start_le
  simp only [fits, Bool.and_eq_true, Bool.or_eq_true, decide_eq_true_eq] at hfits
  rw [signedPos_of_lt (by omega), signedPos_of_lt (by omega)] at hfits
  obtain ⟨hend, hlook⟩ := hfits
  rcases Nat.lt_or_ge (pos + i) f.stop with hlt | hge
  · have key := hf.same (pos + i) (by omega) hlt
    rwa [show ((pos + i : Nat) + f.offset).toNat = q + i by omega] at key
  · -- Past the fragment there is nothing: it has no look-ahead of its own and is not open.
    have hnone : t.numberProp? .lookAhead = none := by
      cases h : t.numberProp? .lookAhead with
      | none => rfl
      | some n =>
          rw [Tree.reach, h, Option.getD_some] at hi
          rw [h, Option.getD_some] at hlook
          omega
    rw [Tree.reach, hnone, Option.getD_none] at hi
    have hclosed : f.openEnd = false := by
      cases hopen : f.openEnd with
      | false => rfl
      | true =>
          have := hin.beforeOpen hopen (pos + t.length) (by omega) (by omega) (by omega)
          omega
    obtain ⟨h₁, h₂⟩ := hf.closedEnd hclosed
    unfold Document.size at h₁ h₂
    rw [Array.getElem?_eq_none (by omega), Array.getElem?_eq_none (by omega)]

/-- A node in the safe part of a faithful fragment keeps the margin from every change before it. -/
theorem margin_of_change {c : ReuseCursor} {f : Fragment} {pos length : Nat}
    (hf : f.Faithful old new changes) (hin : c.InFragment f) (hlen : f.tree.length = old.size)
    (hlow : c.safeStart ≤ pos) (hne : length ≠ 0) (hend : pos + length ≤ f.stop) {ch : Change}
    (hch : ch ∈ changes) (hle : ch.newStart ≤ ch.newStop) (hbefore : ch.newStop ≤ pos) :
    ch.newStop + lookAheadMargin ≤ pos := by
  have hos := hf.old_stop
  rcases hf.apart ch hch with hlt | hge
  · have hopen : f.openStart = true := by
      cases hclosed : f.openStart with
      | true => rfl
      | false =>
          have := hf.closedStart hclosed ch hch
          omega
    have := hin.afterOpen hopen pos (by omega) (by omega)
    omega
  · omega

end Walk

/-- **An offered node covers unchanged text.**  Over the fragments of a tree after edits, and
whatever was asked before, a node that is not empty and is offered at a position is a node of the
old tree at the place that belongs to the position.  The new document shows there the bytes of the
old one, up to as far behind the node as it depends on them, and every change before the node is at
least the margin away. -/
theorem offerAt_unchanged {old new : Document} {t node : Tree} {changes : List Change}
    {minGap pos : Nat} {asked : List Nat} {c : ReuseCursor}
    (hlen : t.length = old.size) (hsize : old.size + new.size < 9223372036854775808)
    (he : Edited old new 0 0 changes) (hpos : pos ≤ maxPos) (hne : node.length ≠ 0)
    (h : ((ofFragments (Fragment.applyChanges (Fragment.addTree t [] false) changes minGap)).ask
      asked).offerAt pos = (some node, c)) :
    ∃ (f : Fragment) (q : Nat),
      f ∈ Fragment.applyChanges (Fragment.addTree t [] false) changes minGap ∧
        c.fragment = some f ∧ (q : Int) = pos + f.offset ∧ t.Holds q node ∧
        (∀ i, i < node.length + node.reach → new.bytes[pos + i]? = old.bytes[q + i]?) ∧
        ∀ ch ∈ changes, ch.newStop ≤ pos → ch.newStop + lookAheadMargin ≤ pos := by
  have hfaithful := @Fragment.faithful_applyChanges old new t minGap changes hlen (by omega)
    (by omega) he
  have hall : AllFaithful old new changes
      (Fragment.applyChanges (Fragment.addTree t [] false) changes minGap) := by
    intro f hf
    obtain ⟨ht, hff⟩ := hfaithful f hf
    exact ⟨by rw [ht, hlen], hff⟩
  have hsound := sound_ask hsize hall (sound_ofFragments hsize hall) asked
  obtain ⟨f, hmem, hfrag, ⟨q, hq, hholds⟩, d, hin, hlow, hfits⟩ :=
    (offerAt_sound pos hsize hall hsound).2 node (by rw [h])
  obtain ⟨ht, hf⟩ := hfaithful f hmem
  -- The position is below the signed bound, since it is not before the safe part.
  have hsafe := hin.start_lt
  rw [signedPos_of_lt hsafe] at hlow
  have hsigned : signedPos pos = pos := by
    refine signedPos_of_lt ?_
    unfold signedPos at hlow
    unfold maxPos at hpos
    split at hlow <;> omega
  rw [hsigned] at hq hlow hfits
  have hnew : new.size < 9223372036854775808 := by omega
  have hend : pos + node.length ≤ f.stop := by
    have h₁ := hin.stop_le
    have h₂ := hf.new_stop
    simp only [fits, Bool.and_eq_true, decide_eq_true_eq] at hfits
    rw [signedPos_of_lt (by omega)] at hfits
    omega
  refine ⟨f, q, hmem, by rw [← hfrag, h], hq, ht ▸ hholds, ?_, ?_⟩
  · intro i hi
    exact same_of_fits hf hin hnew hq (by omega) hne hfits hi
  · intro ch hch hbefore
    exact margin_of_change hf hin (by rw [ht, hlen]) (by omega) hne hend hch
      (he.le_newStart hch).2 hbefore

/-- A tree of ten nodes with ten bytes each. -/
def tenNodes : Tree :=
  .make .none ((List.range 10).map fun i => (10 * i, .make .none [] 10 [])) 100 []

/-- With a byte inserted at the start, the fourth of ten nodes is offered one byte behind its old
place. -/
theorem offerAt_unchanged_tenNodes :
    ∃ (node : Tree) (f : Fragment) (q : Nat),
      (((ofFragments (Fragment.applyChanges (Fragment.addTree tenNodes [] false)
        [.replace 0 0 1] 0)).ask [1]).offerAt 31).1 = some node ∧
      (q : Int) = 31 + f.offset ∧ tenNodes.Holds q node ∧
      ∀ i, i < node.length + node.reach →
        (#[98] ++ Array.replicate 100 97 : Array UInt8)[31 + i]? =
          (Array.replicate 100 97 : Array UInt8)[q + i]? := by
  have hoffer : (((ofFragments (Fragment.applyChanges (Fragment.addTree tenNodes [] false)
      [.replace 0 0 1] 0)).ask [1]).offerAt 31).1 = some (.make .none [] 10 []) := rfl
  have he : Edited { bytes := Array.replicate 100 97 } { bytes := #[98] ++ Array.replicate 100 97 }
      0 0 [.replace 0 0 1] := by
    refine ⟨Nat.le_refl _, Nat.le_refl _, by decide, rfl, by simp [Change.replace], ?_⟩
    refine ⟨Nat.zero_le _, by simp [Change.replace, Document.size], fun i => ?_⟩
    simp only [Change.replace]
    rw [Array.getElem?_append_right (by simp)]
    simp
  obtain ⟨f, q, -, -, hq, hholds, hsame, -⟩ :=
    offerAt_unchanged (by simp [tenNodes, Document.size, maxWord]) (by simp [Document.size]) he
      (by decide) (by decide) (Prod.ext hoffer rfl)
  exact ⟨_, f, q, hoffer, hq, hholds, hsame⟩

end ReuseCursor

end IncrementalLR
