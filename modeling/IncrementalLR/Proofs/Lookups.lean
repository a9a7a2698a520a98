/-
**Look-ups and anonymous nodes.**

Look-ups go through view nodes, and are meant to go through the nodes that are not anonymous.  For
branches that is the same: an anonymous branch is looked through, and what stands in its place are
its own view children.  A node in a buffer is never looked through, whatever its type.  So look-ups
end at the innermost visible node if all nodes in buffers are named, and may end at an anonymous one
if not.

Main definitions:

* `Tree.Visible`, `Tree.Innermost` — nodes that are not anonymous, and the innermost at a position;
* `Buffer.AllNamed` — buffers whose nodes are visible.

Main results:

* `Tree.visible_iff_visits` — the visible nodes are the view nodes;
* `Tree.lookups_innermost` — **all look-ups end at the innermost visible node**;
* `Tree.lookup_stops_anonymous` — a buffer with an anonymous node, where one ends.
-/

import IncrementalLR.Proofs.Resolving

set_option relaxedAutoImplicit false
set_option autoImplicit false

namespace IncrementalLR

/-! ### Named nodes in buffers -/

namespace Buffer

/-- All nodes of a buffer have a type with a name. -/
def AllNamed (b : Buffer) : Prop :=
  ∀ k < b.size / 4, (shownType b.set (b.slot (4 * k))).isAnonymous = false

instance (b : Buffer) : Decidable b.AllNamed :=
  inferInstanceAs (Decidable (∀ k < b.size / 4, _))

/-- Nodes have four slots each. -/
theorem Line.aligned {b : Buffer} {i stop : Nat} {l : List Nat} (h : b.Line i stop l)
    (hi : i % 4 = 0) : stop % 4 = 0 ∧ ∀ j ∈ l, j % 4 = 0 := by
  induction h with
  | nil => exact ⟨hi, fun j hj => by cases hj⟩
  | node _ _ ihInner ih =>
      obtain ⟨hstop, hl⟩ := ih (ihInner (by omega)).1
      exact ⟨hstop, List.forall_mem_cons.2 ⟨hi, hl⟩⟩

end Buffer

/-- The buffers below or around a node are among some buffers. -/
def Node.Within (bs : List Buffer) : Node → Prop
  | .branch n => ∀ b ∈ n.tree.buffers, b ∈ bs
  | .packed n => n.buffer ∈ bs ∧ n.index % 4 = 0

namespace BranchNode

variable {bs : List Buffer}

mutual

theorem within_of_mem_viewAt (mode : Mode) (n : BranchNode) (k pos : Nat) : ∀ t : Tree,
    (∀ b ∈ t.buffers, b.Valid) → (∀ b ∈ t.buffers, b ∈ bs) →
      ∀ c ∈ viewAt mode n k pos t, c.Within bs
  | .packed b, hvalid, hbs, c, hc => by
      obtain ⟨l, hline⟩ := (hvalid b (by simp [Tree.buffers])).exists_line
      rw [viewAt, hline.places_eq (Nat.le_refl _)] at hc
      split at hc
      · cases hc
      · obtain ⟨i, hi, rfl⟩ := List.mem_map.1 hc
        exact ⟨hbs b (by simp [Tree.buffers]), (hline.aligned rfl).2 i hi⟩
  | .branch stamp ty cs len ps, hvalid, hbs, c, hc => by
      rw [viewAt] at hc
      split at hc
      · obtain rfl := List.mem_singleton.1 hc
        exact hbs
      · exact within_of_mem_viewAmong mode _ cs 0 (fun b hb => hvalid b (by simpa [Tree.buffers]))
          (fun b hb => hbs b (by simpa [Tree.buffers])) c hc

theorem within_of_mem_viewAmong (mode : Mode) (n : BranchNode) : ∀ (cs : List (Nat × Tree))
    (k : Nat), (∀ b ∈ Tree.buffersAll cs, b.Valid) → (∀ b ∈ Tree.buffersAll cs, b ∈ bs) →
      ∀ c ∈ viewAmong mode n k cs, c.Within bs
  | [], _, _, _, _, hc => by cases hc
  | (pos, t) :: rest, k, hvalid, hbs, c, hc => by
      rw [viewAmong] at hc
      rcases List.mem_append.1 hc with hc | hc
      · exact within_of_mem_viewAt mode n k pos t (fun b hb => hvalid b (List.mem_append_left _ hb))
          (fun b hb => hbs b (List.mem_append_left _ hb)) c hc
      · exact within_of_mem_viewAmong mode n rest (k + 1)
          (fun b hb => hvalid b (List.mem_append_right _ hb))
          (fun b hb => hbs b (List.mem_append_right _ hb)) c hc

end

end BranchNode

namespace Node

variable {mode : Mode} {n c x : Node} {bs : List Buffer}

theorem Within.of_mem_view (h : n.Within bs) (hn : n.Sound mode) (hc : c ∈ n.view mode) :
    c.Within bs := by
  cases n with
  | branch n =>
      exact BranchNode.within_of_mem_viewAmong mode n n.tree.children 0
        (fun b hb => hn.1 b (Tree.mem_buffers_of_children hb))
        (fun b hb => h b (Tree.mem_buffers_of_children hb)) c hc
  | packed n =>
      obtain ⟨l, hline, hview⟩ := mem_view_packed hn
      rw [hview] at hc
      obtain ⟨i, hi, rfl⟩ := List.mem_map.1 hc
      obtain ⟨hbuffer, hindex⟩ := h
      exact ⟨hbuffer, (hline.aligned (by omega)).2 i hi⟩

theorem Within.of_reaches (h : n.Within bs) (hn : n.Sound mode) (hx : n.Reaches mode x) :
    x.Within bs := by
  induction hx with
  | refl => exact h
  | step hc _ ih => exact ih (h.of_mem_view hn hc) (hn.of_mem_view hc)

/-- Navigation that looks through anonymous branches stops at named nodes. -/
theorem Within.isAnonymous (h : n.Within bs) (hn : n.Sound {}) (hnamed : ∀ b ∈ bs, b.AllNamed) :
    n.type.isAnonymous = false := by
  cases n with
  | branch n =>
      have hbranch : n.tree.isAnonymous = false := by simpa using hn.2
      exact hbranch
  | packed n =>
      obtain ⟨hbuffer, hindex⟩ := h
      obtain ⟨-, hsize, l, hline⟩ := hn
      have hle := hline.le
      have key := hnamed _ hbuffer (n.index / 4) (by omega)
      rwa [show 4 * (n.index / 4) = n.index by omega] at key

end Node

/-! ### Anonymous nodes in between -/

namespace BranchNode

mutual

/-- What navigation shows is found by going through anonymous nodes as well. -/
theorem exists_reaches_of_mem_viewAt (n : BranchNode) (k pos : Nat) : ∀ t : Tree,
    ∀ c ∈ viewAt {} n k pos t, ∃ d ∈ viewAt { includeAnonymous := true } n k pos t,
      d.Reaches { includeAnonymous := true } c
  | .packed b, c, hc => ⟨c, by rwa [viewAt] at hc ⊢, .refl c⟩
  | .branch stamp ty cs len ps, c, hc => by
      rw [viewAt] at hc ⊢
      split at hc
      · exact ⟨c, hc, .refl c⟩
      · obtain ⟨d, hd, hreaches⟩ := exists_reaches_of_mem_viewAmong _ cs 0 c hc
        exact ⟨_, List.mem_singleton_self _, .step hd hreaches⟩

theorem exists_reaches_of_mem_viewAmong (n : BranchNode) : ∀ (cs : List (Nat × Tree)) (k : Nat),
    ∀ c ∈ viewAmong {} n k cs, ∃ d ∈ viewAmong { includeAnonymous := true } n k cs,
      d.Reaches { includeAnonymous := true } c
  | [], _, _, hc => by cases hc
  | (pos, t) :: rest, k, c, hc => by
      rw [viewAmong] at hc ⊢
      rcases List.mem_append.1 hc with hc | hc
      · obtain ⟨d, hd, hreaches⟩ := exists_reaches_of_mem_viewAt n k pos t c hc
        exact ⟨d, List.mem_append_left _ hd, hreaches⟩
      · obtain ⟨d, hd, hreaches⟩ := exists_reaches_of_mem_viewAmong n rest (k + 1) c hc
        exact ⟨d, List.mem_append_right _ hd, hreaches⟩

end

/-- A child is shown, or is anonymous and what it shows stands in its place. -/
theorem mem_viewAmong_or (n : BranchNode) : ∀ (cs : List (Nat × Tree)) (k : Nat),
    ∀ c ∈ viewAmong { includeAnonymous := true } n k cs, c ∈ viewAmong {} n k cs ∨
      c.type.isAnonymous = true ∧ ∀ d ∈ c.view {}, d ∈ viewAmong {} n k cs
  | [], _, _, hc => by cases hc
  | (pos, t) :: rest, k, c, hc => by
      rw [viewAmong] at hc ⊢
      rcases List.mem_append.1 hc with hc | hc
      · cases t with
        | packed b => exact Or.inl (List.mem_append_left _ (by rwa [viewAt] at hc ⊢))
        | branch stamp ty cs len ps =>
            rw [viewAt] at hc
            obtain rfl := List.mem_singleton.1 hc
            rw [viewAt]
            cases hty : ty.isAnonymous with
            | false => exact Or.inl (List.mem_append_left _ (List.mem_singleton_self _))
            | true => exact Or.inr ⟨hty, fun d hd => List.mem_append_left _ hd⟩
      · rcases mem_viewAmong_or n rest (k + 1) c hc with hc | ⟨hanonymous, hview⟩
        · exact Or.inl (List.mem_append_right _ hc)
        · exact Or.inr ⟨hanonymous, fun d hd => List.mem_append_right _ (hview d hd)⟩

end BranchNode

namespace Node

variable {n c x : Node}

/-- View nodes are found by going through anonymous nodes as well. -/
theorem Reaches.through (h : n.Reaches {} x) : n.Reaches { includeAnonymous := true } x := by
  induction h with
  | refl => exact .refl _
  | @step n c x hc _ ih =>
      cases n with
      | branch n =>
          obtain ⟨d, hd, hreaches⟩ := BranchNode.exists_reaches_of_mem_viewAmong n _ 0 c hc
          exact .step hd (hreaches.trans ih)
      | packed n => exact .step hc ih

theorem mem_view_or (h : c ∈ n.view { includeAnonymous := true }) :
    c ∈ n.view {} ∨ c.type.isAnonymous = true ∧ ∀ d ∈ c.view {}, d ∈ n.view {} := by
  cases n with
  | branch n => exact BranchNode.mem_viewAmong_or n _ 0 c h
  | packed n => exact Or.inl h

/-- A node with a name that is found by going through anonymous nodes is a view node. -/
theorem Reaches.of_named (h : n.Reaches { includeAnonymous := true } x)
    (hx : x.type.isAnonymous = false) : x = n ∨ ∃ c ∈ n.view {}, c.Reaches {} x := by
  induction h with
  | refl => exact Or.inl rfl
  | @step n c x hc _ ih =>
      right
      rcases mem_view_or hc with hc | ⟨hanonymous, hview⟩
      · rcases ih hx with rfl | ⟨d, hd, hreaches⟩
        · exact ⟨x, hc, .refl x⟩
        · exact ⟨c, hc, .step hd hreaches⟩
      · rcases ih hx with rfl | ⟨d, hd, hreaches⟩
        · rw [hx] at hanonymous
          cases hanonymous
        · exact ⟨d, hview d hd, hreaches⟩

end Node

/-! ### Visible nodes -/

namespace Tree

variable {t : Tree} {n m : Node} {pos : Nat} {bias : Int}

/-- A node of a tree that is not anonymous. -/
def Visible (t : Tree) (n : Node) : Prop :=
  t.top.Reaches { includeAnonymous := true } n ∧ n.type.isAnonymous = false

/-- The node at a position: the root if it does not cover the position, else the visible node that
covers it and lies inside of all the visible nodes that do. -/
structure Innermost (t : Tree) (pos : Nat) (bias : Int) (m : Node) : Prop where
  outside : t.top.covers pos bias = false → m = t.top
  visible : t.Visible m
  covers : t.top.covers pos bias = true → m.covers pos bias = true
  deepest : ∀ n, t.Visible n → n.covers pos bias = true →
    n.Reaches { includeAnonymous := true } m

/-- **The visible nodes are the view nodes**, if all nodes in buffers are named. -/
theorem visible_iff_visits (htop : t.Visits {} t.top) (hnamed : ∀ b ∈ t.buffers, b.AllNamed) :
    t.Visible n ↔ t.Visits {} n := by
  constructor
  · rintro ⟨hreaches, hn⟩
    rcases hreaches.of_named hn with rfl | ⟨c, hc, hreaches⟩
    · exact htop
    · exact htop.of_reaches (.step hc hreaches)
  · intro h
    have hwithin : t.top.Within t.buffers := fun b hb => hb
    exact ⟨h.reaches.through,
      (hwithin.of_reaches htop.sound h.reaches).isAnonymous h.sound hnamed⟩

theorem Lands.innermost_visible (h : t.Lands pos bias m) (htop : t.Visits {} t.top)
    (hnamed : ∀ b ∈ t.buffers, b.AllNamed) : t.Innermost pos bias m where
  outside := h.outside
  visible := (visible_iff_visits htop hnamed).2 h.visited
  covers := h.covers
  deepest n hn hcovers := (h.innermost n ((visible_iff_visits htop hnamed).1 hn) hcovers).through

/-- **All look-ups end at the innermost visible node.**  In a well-formed tree with a named root,
and with named nodes in its buffers, a look-up from the root, one from the node remembered after
any look-ups in the tree, one from any visible node, and a cursor at any visible node all end at
the same node: at the root if it does not cover the position, and else at the visible node that
covers it and lies inside of all others that do. -/
theorem lookups_innermost (h : t.WellFormed) (hroot : t.isAnonymous = false)
    (hword : t.length ≤ maxWord) (hnamed : ∀ b ∈ t.buffers, b.AllNamed) (hpos : pos ≤ maxPos)
    (bias : Int) :
    t.Innermost pos bias (t.resolve pos bias) ∧
    (∀ history : List (Nat × Int),
      ((NodeMemo.after t history).resolve t pos bias).1 = t.resolve pos bias) ∧
    ∀ n, t.Visible n →
      n.resolve pos bias = t.resolve pos bias ∧
      ((Cursor.mk n {}).moveTo pos bias).node = t.resolve pos bias := by
  have htop : t.Visits {} t.top := .top h hroot {}
  obtain ⟨hlands, hmemo, hothers⟩ := lookups_land htop hword hpos bias
  exact ⟨hlands.innermost_visible htop hnamed, hmemo, fun n hn =>
    hothers n ((visible_iff_visits htop hnamed).1 hn)⟩

/-- Position 5 lies in a node of a buffer, in a branch beside anonymous ones.  The tree has an
identity, so that the second look-up goes on from the node of the first one, and so does one at the
same position after another at the end. -/
theorem lookups_innermost_mixed :
    let t := mixedTree.stampAll 1
    let m := t.resolve 5 0
    (t.WellFormed ∧ t.isAnonymous = false ∧ t.length ≤ maxWord ∧ ∀ b ∈ t.buffers, b.AllNamed) ∧
    (m.name, m.start, m.stop) = ("A", 4, 6) ∧ t.Innermost 5 0 m ∧
    t.same t = true ∧ ((NodeMemo.after t [(1, -1)]).last.map fun x => (x.2.name, x.2.start)) =
      some ("B", 0) ∧
    ((NodeMemo.after t [(1, -1)]).resolve t 5 0).1 = m ∧
    ((NodeMemo.after t [(1, -1), (5, 0), (9, 0)]).resolve t 5 0).1 = m ∧
    ∀ n, t.Visible n → n.resolve 5 0 = m ∧ ((Cursor.mk n {}).moveTo 5 0).node = m := by
  have ht : (mixedTree.stampAll 1).WellFormed ∧ (mixedTree.stampAll 1).isAnonymous = false ∧
      (mixedTree.stampAll 1).length ≤ maxWord ∧
        ∀ b ∈ (mixedTree.stampAll 1).buffers, b.AllNamed := by
    decide
  obtain ⟨hinnermost, hmemo, hothers⟩ :=
    lookups_innermost ht.1 ht.2.1 ht.2.2.1 ht.2.2.2 (by decide : 5 ≤ maxPos) 0
  exact ⟨ht, by decide +kernel, hinnermost, by decide, by decide +kernel, hmemo _, hmemo _, hothers⟩

/-! ### An anonymous node in a buffer -/

/-- Two nodes in a buffer, and an anonymous one around them. -/
def pairBuffer : Buffer where
  slots := #[2, 0, 2, 12, 3, 0, 1, 8, 3, 1, 2, 12]
  length := 2
  set := ⟨#[{ epoch := 1, id := 0, name := "⚠", isError := true },
    { epoch := 1, id := 1, name := "Top", isTop := true },
    { epoch := 1, id := 2, name := "" }, { epoch := 1, id := 3, name := "X" }]⟩

/-- A tree with that buffer in it. -/
def pairTree : Tree :=
  .branch none ((pairBuffer.set.get? 1).getD .none) [(0, .packed pairBuffer)] 2 []

/-- **A look-up ends at the anonymous node**, although the innermost visible node is the root. -/
theorem lookup_stops_anonymous :
    let t := pairTree
    let m := t.resolve 1 0
    (t.WellFormed ∧ t.isAnonymous = false ∧ t.length ≤ maxWord) ∧
    (m.name, m.start, m.stop) = ("", 0, 2) ∧ m.type.isAnonymous = true ∧ ¬ t.Innermost 1 0 m ∧
    t.Innermost 1 0 t.top := by
  have htop : pairTree.Visits {} pairTree.top := .top (by decide) (by decide) {}
  have hlands : pairTree.Lands 1 0 (pairTree.resolve 1 0) :=
    (lookups_land htop (by decide) (by decide) 0).1
  have hanonymous : (pairTree.resolve 1 0).type.isAnonymous = true := by decide +kernel
  have hview : pairTree.top.view {} = [pairTree.resolve 1 0] := rfl
  have hnot : ¬ pairTree.Visible (pairTree.resolve 1 0) := fun h => by
    rw [h.2] at hanonymous
    cases hanonymous
  refine ⟨by decide, by decide +kernel, hanonymous, fun h => hnot h.visible, fun _ => rfl,
    ⟨.refl _, by decide⟩, fun h => h, fun n hn hcovers => ?_⟩
  rcases hn.1.of_named hn.2 with rfl | ⟨c, hc, hreaches⟩
  · exact .refl _
  · -- any other visible node that covers the position would be the anonymous one
    rw [hview] at hc
    obtain rfl := List.mem_singleton.1 hc
    have hvisits := hlands.visited.of_reaches hreaches
    rw [hreaches.antisymm (hlands.innermost n hvisits hcovers) hlands.visited.sound] at hn
    exact absurd hn hnot

end Tree

end IncrementalLR
