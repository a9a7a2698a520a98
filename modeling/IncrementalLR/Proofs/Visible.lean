/-
**What is seen of a tree.**

Navigation looks through anonymous branches and into buffers, so what it shows of a stored tree is
an outline: the named nodes with their types and positions.  This module reads that outline off the
stored tree, and proves that walking through a well-formed tree from first children to next siblings
shows just this.

Main definitions:

* `Buffer.outlines`, `Tree.visible` — what is seen of a buffer and of a tree;
* `Buffer.Spells` — slots that list the nodes of outlines;
* `Node.Walks` — what a walk from a node on shows.

Main results:

* `Buffer.Spells.outlinesF_eq` — slots are read back as what they spell;
* `Node.walks_visible` — **a walk through a tree shows its outline**.
-/

import IncrementalLR.Proofs.Formed
import IncrementalLR.Proofs.Outlines
import IncrementalLR.Tree.View

set_option relaxedAutoImplicit false
set_option autoImplicit false

namespace IncrementalLR

/-! ### Packed nodes -/

namespace Buffer

/-- The type that an id in a buffer shows as. -/
def shownType (set : NodeSet) (id : Nat) : NodeType := ((set.get? id).or (set.get? 0)).getD .none

/-- The nodes that slots list, the first of which has index `i`, in a buffer at position `base`;
`fuel` bounds their number. -/
def outlinesF (set : NodeSet) (base : Nat) : Nat → Nat → List Nat → List (Outline NodeType)
  | fuel + 1, i, id :: start :: stop :: last :: rest =>
      .node (shownType set id) (base + start) (base + stop)
          (outlinesF set base fuel (i + 4) (rest.take (last - (i + 4)))) ::
        outlinesF set base fuel last (rest.drop (last - (i + 4)))
  | _, _, _ => []

/-- The nodes of a buffer at a position. -/
def outlines (b : Buffer) (base : Nat) : List (Outline NodeType) :=
  outlinesF b.set base b.slots.toList.length 0 b.slots.toList

/-- Slots, the first of which has index `i`, that list the nodes of outlines in a buffer at position
`base`. -/
inductive Spells (set : NodeSet) (base : Nat) : Nat → List Nat → List (Outline NodeType) → Prop
  | nil {i : Nat} : Spells set base i [] []
  | node {i id start stop last : Nat} {inner outer : List Nat} {cs os : List (Outline NodeType)} :
      last = i + 4 + inner.length → Spells set base (i + 4) inner cs →
      Spells set base last outer os →
      Spells set base i (id :: start :: stop :: last :: (inner ++ outer))
        (.node (shownType set id) (base + start) (base + stop) cs :: os)

namespace Spells

variable {set : NodeSet} {base i : Nat} {l l' : List Nat} {os os' : List (Outline NodeType)}

theorem append (h : Spells set base i l os) (h' : Spells set base (i + l.length) l' os') :
    Spells set base i (l ++ l') (os ++ os') := by
  induction h with
  | nil => exact h'
  | @node i id start stop last inner outer cs os hlast hinner _ _ ih =>
      have hindex : i + (id :: start :: stop :: last :: (inner ++ outer)).length =
          last + outer.length := by
        simp only [List.length_cons, List.length_append]
        omega
      rw [hindex] at h'
      simp only [List.cons_append, List.append_assoc]
      exact .node hlast hinner (ih h')

/-- Slots are read back as what they spell. -/
theorem outlinesF_eq (h : Spells set base i l os) {fuel : Nat} (hfuel : l.length ≤ fuel) :
    outlinesF set base fuel i l = os := by
  induction h generalizing fuel with
  | nil => cases fuel <;> rfl
  | @node i id start stop last inner outer cs os hlast _ _ ihInner ih =>
      simp only [List.length_cons, List.length_append] at hfuel
      cases fuel with
      | zero => omega
      | succ fuel =>
          have hcount : last - (i + 4) = inner.length := by omega
          rw [outlinesF, hcount, List.take_left, List.drop_left, ihInner (by omega), ih (by omega)]

theorem outlines_eq {b : Buffer} (h : Spells b.set base 0 b.slots.toList os) :
    b.outlines base = os :=
  h.outlinesF_eq (Nat.le_refl _)

theorem length_eq (h : Spells set base i l os) : l.length = 4 * Outline.countAll os := by
  induction h with
  | nil => rfl
  | node _ _ _ ihInner ih =>
      simp only [List.length_cons, List.length_append, Outline.countAll, Outline.count]
      omega

end Spells

/-- Well-formed slots spell something. -/
theorem Nests.exists_spells {i lo hi : Nat} {l : List Nat} (h : Nests i lo hi l) (set : NodeSet)
    (base : Nat) : ∃ os, Spells set base i l os := by
  induction h with
  | nil => exact ⟨[], .nil⟩
  | node _ hlast _ _ ihInner ih =>
      obtain ⟨cs, hcs⟩ := ihInner
      obtain ⟨os, hos⟩ := ih
      exact ⟨_, .node hlast hcs hos⟩

theorem WellFormed.spells {b : Buffer} (h : b.WellFormed) (base : Nat) :
    Spells b.set base 0 b.slots.toList (b.outlines base) := by
  obtain ⟨os, hos⟩ := Nests.exists_spells h b.set base
  rwa [hos.outlines_eq]

end Buffer

/-! ### Trees -/

namespace Tree

mutual

/-- What is seen of a tree that starts at a position. -/
def visible : Tree → Nat → List (Outline NodeType)
  | branch _ ty cs length _, start =>
      if ty.isAnonymous then visibleAll cs start
      else [.node ty start (start + length) (visibleAll cs start)]
  | packed b, start => b.outlines start

/-- What is seen of children whose parent starts at a position. -/
def visibleAll : List (Nat × Tree) → Nat → List (Outline NodeType)
  | [], _ => []
  | (pos, t) :: rest, start => t.visible (start + pos) ++ visibleAll rest start

end

theorem visibleAll_append (cs cs' : List (Nat × Tree)) (start : Nat) :
    visibleAll (cs ++ cs') start = visibleAll cs start ++ visibleAll cs' start := by
  induction cs with
  | nil => simp [visibleAll]
  | cons c cs ih => simp [visibleAll, ih]

end Tree

/-! ### Walks -/

/-- What is shown from a node on by taking first children and next siblings: the node with its type
and its positions, what is shown from its first child on, and what is shown from its next sibling
on. -/
inductive Node.Walks : Option Node → List (Outline NodeType) → Prop
  | nil : Walks none []
  | node {n : Node} {cs os : List (Outline NodeType)} : Walks n.firstChild cs →
      Walks n.nextSibling os → Walks (some n) (.node n.type n.start n.stop cs :: os)

/-- The first node that a walk shows is the one that it starts from. -/
theorem Node.Walks.head_eq {n : Node} {o : Outline NodeType} {os : List (Outline NodeType)}
    (h : Node.Walks (some n) (o :: os)) : ∃ cs, o = .node n.type n.start n.stop cs := by
  cases h with
  | node _ _ => exact ⟨_, rfl⟩

namespace Buffer

/-- The slots of the node whose slots begin after some others. -/
theorem slots_of_split {b : Buffer} {before rest : List Nat} {id start stop last : Nat}
    (h : b.slots.toList = before ++ id :: start :: stop :: last :: rest) :
    b.slot before.length = id ∧ b.slot (before.length + 1) = start ∧
      b.slot (before.length + 2) = stop ∧ b.slot (before.length + 3) = last := by
  have hslot : ∀ j, b.slot j = b.slots.toList[j]?.getD 0 := by
    intro j
    simp [slot, Array.getD_eq_getD_getElem?]
  simp [hslot, h]

/-- The first of several siblings. -/
theorem find_forward (b : Buffer) (pos : Int) (i stop : Nat) :
    b.find .forward .any pos i stop = if i ≠ stop ∧ i + 3 < b.size then some i else none := by
  unfold find
  cases hsize : b.size with
  | zero =>
      rw [findF, if_neg]
      omega
  | succ n =>
      rw [findF, hsize]
      split <;> simp

end Buffer

namespace PackedNode

/-- A walk through siblings in a buffer, and then beside the buffer. -/
theorem walks_moveTo {set : NodeSet} {base i : Nat} {seg : List Nat} {os : List (Outline NodeType)}
    (h : Buffer.Spells set base i seg os) :
    ∀ (n : PackedNode) (before behind : List Nat) (tail : List (Outline NodeType)),
      n.buffer.set = set → n.start = base → n.buffer.slots.toList = before ++ (seg ++ behind) →
      before.length = i → n.lastIndex = i + seg.length → seg ≠ [] →
      Node.Walks (n.beside .forward {}) tail →
        Node.Walks (some (n.moveTo n.outer i)) (os ++ tail) := by
  induction h with
  | nil =>
      intro n before behind tail _ _ _ _ _ hne
      exact absurd rfl hne
  | @node i id start stop last inner outer cs os hlast hinner houter ihInner ih =>
      rintro n before behind tail rfl rfl hsplit rfl hend - hbeside
      simp only [List.cons_append, List.append_assoc] at hsplit
      obtain ⟨hid, hstart, hstop, hslot⟩ := Buffer.slots_of_split hsplit
      have hsize : n.buffer.size = before.length + (4 + inner.length + outer.length +
          behind.length) := by
        have hlength := congrArg List.length hsplit
        simp only [Array.length_toList, List.length_append, List.length_cons] at hlength
        rw [Buffer.size, hlength]
        omega
      simp only [List.length_cons, List.length_append] at hend
      have htype : (n.moveTo n.outer before.length).type = Buffer.shownType n.buffer.set id := by
        simp only [moveTo, Node.type, type, slot, Nat.add_zero, hid]
        rfl
      have hfirst : (n.moveTo n.outer before.length).start = n.start + start := by
        simp only [moveTo, Node.start, slot, hstart]
      have hfinal : (n.moveTo n.outer before.length).stop = n.start + stop := by
        simp only [moveTo, Node.stop, slot, hstop]
      rw [List.cons_append, ← htype, ← hfirst, ← hfinal]
      refine .node ?_ ?_
      · -- the children follow in the buffer
        have hchild : (n.moveTo n.outer before.length).firstChild =
            if inner = [] then none
            else some (n.moveTo (before.length :: n.outer) (before.length + 4)) := by
          simp only [moveTo, Node.firstChild, Node.child, child, slot, hslot, Buffer.find_forward,
            Bool.false_eq_true, if_false]
          cases inner with
          | nil => simp [hlast]
          | cons x inner =>
              have hone := houter.length_eq
              have htwo := hinner.length_eq
              rw [if_pos, if_neg (by simp)]
              · rfl
              · simp only [List.length_cons] at hlast hsize htwo
                omega
        rw [hchild]
        cases inner with
        | nil =>
            cases hinner
            exact .nil
        | cons x inner =>
            rw [if_neg (by simp)]
            have key := ihInner { n with outer := before.length :: n.outer }
              (before ++ [id, start, stop, last]) (outer ++ behind) [] rfl rfl
              (by simpa using hsplit) (by simp) (by simp [lastIndex, hslot, hlast]) (by simp) .nil
            rw [List.append_nil] at key
            exact key
      · -- so do the siblings, unless the buffer ends
        have hnext : (n.moveTo n.outer before.length).nextSibling =
            if outer = [] then n.beside .forward {} else some (n.moveTo n.outer last) := by
          have hlastIndex : ({ n with index := before.length } : PackedNode).lastIndex =
              n.lastIndex := rfl
          simp only [moveTo, Node.nextSibling, Node.sibling, sibling, slot, hslot, hlastIndex, hend]
          cases outer with
          | nil =>
              rw [if_neg (by simp only [List.length_nil]; omega), if_pos rfl]
              rfl
          | cons x outer =>
              rw [if_pos (by simp only [List.length_cons]; omega), if_neg (by simp)]
        rw [hnext]
        cases outer with
        | nil =>
            cases houter
            rw [if_pos rfl]
            exact hbeside
        | cons x outer =>
            rw [if_neg (by simp)]
            exact ih n (before ++ [id, start, stop, last] ++ inner) behind tail rfl rfl
              (by simpa using hsplit) (by simp; omega) (by omega) (by simp) hbeside

end PackedNode

namespace BranchNode

/-- What a search goes on with when a branch has no more children: if the branch is anonymous, it
is looked beside it. -/
def besideAnonymous (n : BranchNode) : Option Node :=
  if n.tree.isAnonymous then n.sibling .forward {} else none

theorem search_eq (n : BranchNode) (k : Nat) :
    n.search { dir := .forward } k =
      (searchAmong { dir := .forward } n k (n.tree.children.drop k)).or n.besideAnonymous := by
  obtain ⟨tree, start, above⟩ := n
  cases above with
  | nil =>
      simp only [search, searchFrom, searchHere, besideAnonymous, sibling]
      split <;> simp
  | cons u rest =>
      simp only [search, searchFrom, searchHere, besideAnonymous, sibling, Bool.false_or]
      cases searchAmong { dir := .forward } ⟨tree, start, u :: rest⟩ k (tree.children.drop k) with
      | some found => rfl
      | none =>
          cases tree.isAnonymous with
          | true => rfl
          | false => rfl

mutual

/-- What a walk shows from a child on, if it shows `tail` from the next one on. -/
theorem walks_searchAt (n : BranchNode) (k pos : Nat) (tail : List (Outline NodeType)) :
    ∀ t : Tree, t.WellFormed → Node.Walks (n.search { dir := .forward } (k + 1)) tail →
      Node.Walks
        ((searchAt { dir := .forward } n k pos t).or (n.search { dir := .forward } (k + 1)))
        (t.visible (n.start + pos) ++ tail)
  | .packed b, hformed, hnext => by
      have hspells := Buffer.WellFormed.spells hformed (n.start + pos)
      rw [Tree.visible, searchAt]
      simp only [Bool.not_false, Side.holds_any, Bool.and_self, if_true, Buffer.find_forward]
      cases hslots : b.slots.toList with
      | nil =>
          rw [hslots] at hspells
          have hsize : b.size = 0 := by simp [Buffer.size, ← Array.length_toList, hslots]
          rw [if_neg (by omega)]
          generalize b.outlines (n.start + pos) = os at hspells ⊢
          cases hspells
          exact hnext
      | cons x rest =>
          have hfour : b.size = 4 * Outline.countAll (b.outlines (n.start + pos)) := by
            have hlength := hspells.length_eq
            rwa [Array.length_toList] at hlength
          have hpos : b.size = rest.length + 1 := by
            rw [Buffer.size, ← Array.length_toList, hslots, List.length_cons]
          rw [if_pos (by omega)]
          exact PackedNode.walks_moveTo hspells ⟨n, b, k, pos + n.start, [], 0⟩ [] [] tail rfl
            (Nat.add_comm ..) (by simp) rfl (by simp [PackedNode.lastIndex, Buffer.size])
            (by simp [hslots]) hnext
  | .branch stamp ty cs len ps, hformed, hnext => by
      have hstart : n.start + pos = pos + n.start := Nat.add_comm ..
      have hsibling : (n.enter k (pos + n.start) (.branch stamp ty cs len ps)).sibling .forward {} =
          n.search { dir := .forward } (k + 1) := rfl
      rw [Tree.visible, searchAt, hstart]
      simp only [Side.holds_any, if_true, Bool.false_or]
      cases hty : ty.isAnonymous with
      | true =>
          -- the children stand in its place
          have hbeside : (n.enter k (pos + n.start) (.branch stamp ty cs len ps)).besideAnonymous =
              n.search { dir := .forward } (k + 1) := by
            rw [besideAnonymous, hsibling]
            simp [enter, Tree.isAnonymous, Tree.type, hty]
          have key := walks_searchAmong (n.enter k (pos + n.start) (.branch stamp ty cs len ps))
            tail cs 0 rfl hformed.2 (by rwa [hbeside])
          rw [hbeside] at key
          simp only [Bool.not_true, Bool.false_eq_true, if_false, if_true]
          exact key
      | false =>
          have hbeside : (n.enter k (pos + n.start) (.branch stamp ty cs len ps)).besideAnonymous =
              none := by
            simp [besideAnonymous, enter, Tree.isAnonymous, Tree.type, hty]
          have key := walks_searchAmong (n.enter k (pos + n.start) (.branch stamp ty cs len ps)) []
            cs 0 rfl hformed.2 (by rw [hbeside]; exact .nil)
          have hchild : (Node.branch
              (n.enter k (pos + n.start) (.branch stamp ty cs len ps))).firstChild =
              (searchAmong { dir := .forward }
                (n.enter k (pos + n.start) (.branch stamp ty cs len ps)) 0 cs).or none := by
            rw [← hbeside]
            exact search_eq _ 0
          rw [hbeside, List.append_nil, ← hchild] at key
          exact .node key hnext

/-- What a walk shows from some children on. -/
theorem walks_searchAmong (n : BranchNode) (tail : List (Outline NodeType)) :
    ∀ (cs : List (Nat × Tree)) (k : Nat), n.tree.children.drop k = cs →
      Tree.FormedAll Buffer.WellFormed cs → Node.Walks n.besideAnonymous tail →
      Node.Walks ((searchAmong { dir := .forward } n k cs).or n.besideAnonymous)
        (Tree.visibleAll cs n.start ++ tail)
  | [], k, _, _, hbeside => by
      simpa [searchAmong, Tree.visibleAll] using hbeside
  | (pos, t) :: rest, k, hdrop, hformed, hbeside => by
      have hrest : n.tree.children.drop (k + 1) = rest := by
        rw [← List.tail_drop, hdrop, List.tail_cons]
      have hnext := walks_searchAmong n tail rest (k + 1) hrest hformed.2 hbeside
      have hsearch := n.search_eq (k + 1)
      rw [hrest] at hsearch
      rw [← hsearch] at hnext
      have key := walks_searchAt n k pos _ t hformed.1 hnext
      rw [searchAmong, Tree.visibleAll, List.append_assoc]
      rw [hsearch] at key
      cases hat : searchAt { dir := .forward } n k pos t with
      | some found =>
          rw [hat] at key
          exact key
      | none =>
          rw [hat] at key
          exact key

end

end BranchNode

/-- **A walk through a tree with well-formed children shows its outline.** -/
theorem Node.walks_visible {t : Tree} (h : Tree.FormedAll Buffer.WellFormed t.children) :
    Node.Walks t.top.firstChild (Tree.visibleAll t.children 0) := by
  have hnone : t.root.besideAnonymous = none := by
    rw [BranchNode.besideAnonymous]
    split <;> rfl
  have key := BranchNode.walks_searchAmong t.root [] t.children 0 rfl h (by rw [hnone]; exact .nil)
  rw [List.append_nil] at key
  show Node.Walks (t.root.search { dir := .forward } 0) _
  rw [BranchNode.search_eq]
  exact key

end IncrementalLR
