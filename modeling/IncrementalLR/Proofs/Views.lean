/-
**What navigation goes through.**

The nodes that navigation shows below a node are its view children: the child trees and the
outermost nodes of its buffers, with the view children of an anonymous child tree in its place.  A
search does not make this list.  It goes through the children from some place on and, where an
anonymous branch ends, on beside that branch.  Both agree: a search from the near side of some
children goes through their views, and then does what a search from their far side does.

Main definitions:

* `Direction.order` — a list in the order of a direction;
* `Buffer.Line`, `Buffer.places` — the nodes in a buffer that stand beside each other;
* `Node.view` — the view children of a node;
* `Node.Siblings` — what siblings are found one after the other;
* `Node.extentAll` — how much of the tree lies inside of nodes.

Main results:

* `BranchNode.search_split` — a search among children and beyond them;
* `Node.siblings_child` — **first child and next siblings go through the view children**;
* `Node.parentIn_of_mem_view` — **the parent of a view child is the node itself**;
* `Node.extentAll_view_lt` — view children are together smaller than the node.
-/

import IncrementalLR.Proofs.Visible

set_option relaxedAutoImplicit false
set_option autoImplicit false

namespace IncrementalLR

/-! ### Directions -/

namespace Direction

/-- A list in the order of a direction. -/
def order {α : Type} (d : Direction) (l : List α) : List α :=
  match d with
  | .forward => l
  | .backward => l.reverse

/-- The place from which a search goes through `count` children that stand from place `k` on. -/
def near (d : Direction) (k count : Nat) : Nat :=
  match d with
  | .forward => k
  | .backward => k + count

/-- The place from which a search leaves those children behind. -/
def far (d : Direction) (k count : Nat) : Nat :=
  match d with
  | .forward => k + count
  | .backward => k

variable {α β : Type} (d : Direction)

theorem far_one (k : Nat) : d.far k 1 = d.beside k := by
  cases d <;> rfl

@[simp] theorem mem_order {l : List α} {x : α} : x ∈ d.order l ↔ x ∈ l := by
  cases d <;> simp [order]

@[simp] theorem order_nil : d.order ([] : List α) = [] := by
  cases d <;> rfl

@[simp] theorem order_singleton (x : α) : d.order [x] = [x] := by
  cases d <;> rfl

theorem order_map (f : α → β) (l : List α) : d.order (l.map f) = (d.order l).map f := by
  cases d <;> simp [order]

theorem order_perm (l : List α) : (d.order l).Perm l := by
  cases d with
  | forward => exact .refl _
  | backward => exact List.reverse_perm l

end Direction

/-! ### Nodes in a buffer -/

namespace Buffer

/-- The nodes from index `i` to index `stop` that stand beside each other, each with the nodes
inside of it in between, have the indices `l`. -/
inductive Line (b : Buffer) : Nat → Nat → List Nat → Prop
  | nil {i : Nat} : Line b i i []
  | node {i stop : Nat} {inner l : List Nat} : Line b (i + 4) (b.slot (i + 3)) inner →
      Line b (b.slot (i + 3)) stop l → Line b i stop (i :: l)

/-- The indices of the nodes that stand beside each other from index `i` to index `stop`. -/
def placesF (b : Buffer) : Nat → Nat → Nat → List Nat
  | 0, _, _ => []
  | fuel + 1, stop, i => if i < stop then i :: placesF b fuel stop (b.slot (i + 3)) else []

/-- The indices of the nodes that stand beside each other from index `i` to index `stop`. -/
def places (b : Buffer) (i stop : Nat) : List Nat := b.placesF b.size stop i

/-- A buffer whose slots list the nodes of a forest in pre-order. -/
def Valid (b : Buffer) : Prop := ∃ os, Spells b.set 0 0 b.slots.toList os

namespace Line

variable {b : Buffer} {i mid stop : Nat} {l l' : List Nat}

theorem le (h : Line b i stop l) : i + 4 * l.length ≤ stop := by
  induction h with
  | nil => exact Nat.le_refl _
  | node _ _ ihInner ih =>
      rw [List.length_cons]
      omega

theorem placesF_eq (h : Line b i stop l) {fuel : Nat} (hfuel : l.length ≤ fuel) :
    b.placesF fuel stop i = l := by
  induction h generalizing fuel with
  | nil =>
      cases fuel with
      | zero => rfl
      | succ fuel => rw [placesF, if_neg (Nat.lt_irrefl _)]
  | node hinner hrest _ ih =>
      obtain ⟨fuel, rfl⟩ := Nat.exists_eq_succ_of_ne_zero (Nat.ne_of_gt (Nat.zero_lt_of_lt hfuel))
      have := hinner.le
      have := hrest.le
      rw [placesF, if_pos (by omega), ih (Nat.le_of_succ_le_succ hfuel)]

theorem places_eq (h : Line b i stop l) (hstop : stop ≤ b.size) : b.places i stop = l := by
  refine h.placesF_eq ?_
  have := h.le
  omega

/-- The nodes before one of them, and those from it on. -/
theorem split (h : Line b i stop (l ++ mid :: l')) :
    Line b i mid l ∧ Line b mid stop (mid :: l') := by
  induction l generalizing i with
  | nil =>
      cases h with
      | node hinner hrest => exact ⟨.nil, .node hinner hrest⟩
  | cons x l ih =>
      cases h with
      | node hinner hrest =>
          obtain ⟨hfirst, hlast⟩ := ih hrest
          exact ⟨.node hinner hfirst, hlast⟩

/-- Where one of the nodes ends the buffer has room for it, and its own nodes stand in between. -/
theorem inner (h : Line b i stop l) (hmid : mid ∈ l) :
    b.slot (mid + 3) ≤ stop ∧ ∃ l', Line b (mid + 4) (b.slot (mid + 3)) l' := by
  induction h with
  | nil => cases hmid
  | @node i stop inner l hinner hrest _ ih =>
      rcases List.mem_cons.1 hmid with rfl | hmid
      · have := hrest.le
        exact ⟨by omega, inner, hinner⟩
      · exact ih hmid

theorem le_of_mem (h : Line b i stop l) (hmid : mid ∈ l) : i ≤ mid ∧ mid + 4 ≤ stop := by
  induction h with
  | nil => cases hmid
  | node hinner hrest _ ih =>
      have := hinner.le
      have := hrest.le
      rcases List.mem_cons.1 hmid with rfl | hmid
      · omega
      · have := ih hmid
        omega

theorem nodup (h : Line b i stop l) : l.Nodup := by
  induction h with
  | nil => exact .nil
  | node hinner hrest _ ih =>
      refine List.nodup_cons.2 ⟨fun hmem => ?_, ih⟩
      have := hinner.le
      have := hrest.le_of_mem hmem
      omega

theorem head? (h : Line b i stop l) : l.head? = if i < stop then some i else none := by
  cases h with
  | nil => rw [if_neg (Nat.lt_irrefl _), List.head?_nil]
  | node hinner hrest =>
      have := hinner.le
      have := hrest.le
      rw [if_pos (by omega), List.head?_cons]

/-- A search finds the first node that fits. -/
theorem findF_eq (h : Line b i stop l) (hstop : stop ≤ b.size) (dir : Direction) (side : Side)
    (pos : Int) {fuel : Nat} (hfuel : l.length ≤ fuel) :
    b.findF dir side pos fuel stop i =
      (dir.order l).find? fun j => side.holds pos (b.slot (j + 1)) (b.slot (j + 2)) := by
  induction h generalizing fuel with
  | nil =>
      rw [Direction.order_nil]
      cases fuel with
      | zero => rfl
      | succ fuel => rw [findF, if_neg (fun hne => hne.1 rfl), List.find?_nil]
  | @node i stop _ l hinner hrest _ ih =>
      obtain ⟨fuel, rfl⟩ := Nat.exists_eq_succ_of_ne_zero (Nat.ne_of_gt (Nat.zero_lt_of_lt hfuel))
      have := hinner.le
      have := hrest.le
      rw [findF, if_pos ⟨by omega, by omega⟩, ih hstop (Nat.le_of_succ_le_succ hfuel)]
      cases dir with
      | forward =>
          simp only [Direction.order, List.find?_cons]
          split <;> simp_all
      | backward =>
          simp only [Direction.order, List.reverse_cons, List.find?_append]
          cases l.reverse.find? _ <;> simp [List.find?_cons]
          split <;> simp_all

theorem find_eq (h : Line b i stop l) (hstop : stop ≤ b.size) (dir : Direction) (side : Side)
    (pos : Int) : b.find dir side pos i stop =
      (dir.order l).find? fun j => side.holds pos (b.slot (j + 1)) (b.slot (j + 2)) := by
  refine h.findF_eq hstop dir side pos ?_
  have := h.le
  omega

/-- A search for anything finds the first node. -/
theorem find_any (h : Line b i stop l) (hstop : stop ≤ b.size) (dir : Direction) (pos : Int) :
    b.find dir .any pos i stop = (dir.order l).head? := by
  rw [h.find_eq hstop]
  cases dir.order l <;> rfl

end Line

/-- Slots that list the nodes of a forest. -/
theorem Spells.exists_line {set : NodeSet} {base i : Nat} {seg : List Nat}
    {os : List (Outline NodeType)} (h : Spells set base i seg os) {b : Buffer}
    (before behind : List Nat) (hsplit : b.slots.toList = before ++ (seg ++ behind))
    (hi : before.length = i) : ∃ l, Line b i (i + seg.length) l := by
  induction h generalizing before behind with
  | nil => exact ⟨[], .nil⟩
  | @node i id start stop last inner outer cs os hlast _ _ ihInner ih =>
      subst hi
      simp only [List.cons_append, List.append_assoc] at hsplit
      obtain ⟨-, -, -, hslot⟩ := slots_of_split hsplit
      obtain ⟨js, hjs⟩ := ihInner (before ++ [id, start, stop, last])
        (outer ++ behind) (by simpa using hsplit) (by simp)
      obtain ⟨ks, hks⟩ := ih (before ++ [id, start, stop, last] ++ inner)
        behind (by simpa using hsplit) (by simp; omega)
      have hend : before.length + (id :: start :: stop :: last :: (inner ++ outer)).length =
          last + outer.length := by
        simp only [List.length_cons, List.length_append]
        omega
      rw [← hlast, ← hslot] at hjs
      rw [hend]
      rw [← hslot] at hks ⊢
      exact ⟨_, .node hjs hks⟩

theorem Valid.exists_line {b : Buffer} (h : b.Valid) : ∃ l, Line b 0 b.size l := by
  obtain ⟨os, hos⟩ := h
  obtain ⟨l, hl⟩ := hos.exists_line (b := b) [] [] (by simp) rfl
  rw [Nat.zero_add, Array.length_toList] at hl
  exact ⟨l, hl⟩

end Buffer

/-! ### View children -/

namespace BranchNode

mutual

/-- What navigation shows of one child: the child itself, the outermost nodes of a buffer, or, of an
anonymous branch, what it shows of its children. -/
def viewAt (mode : Mode) (parent : BranchNode) (index pos : Nat) : Tree → List Node
  | .packed b =>
      if mode.excludeBuffers then []
      else (b.places 0 b.size).map fun i =>
        .packed ⟨parent, b, index, pos + parent.start, [], i⟩
  | .branch s ty cs len ps =>
      let inner := parent.enter index (pos + parent.start) (.branch s ty cs len ps)
      if mode.includeAnonymous || !ty.isAnonymous then [.branch inner]
      else viewAmong mode inner 0 cs

/-- What navigation shows of children, the first of which stands at place `index`. -/
def viewAmong (mode : Mode) (parent : BranchNode) (index : Nat) : List (Nat × Tree) → List Node
  | [] => []
  | (pos, t) :: rest => viewAt mode parent index pos t ++ viewAmong mode parent (index + 1) rest

end

end BranchNode

/-- The view children of a node. -/
def Node.view (mode : Mode) : Node → List Node
  | .branch n => n.viewAmong mode 0 n.tree.children
  | .packed n =>
      if mode.excludeBuffers then []
      else (n.buffer.places (n.index + 4) (n.slot 3)).map (n.moveTo (n.index :: n.outer))

/-- The siblings that are found one after the other. -/
inductive Node.Siblings (dir : Direction) (mode : Mode) : Option Node → List Node → Prop
  | nil : Siblings dir mode none []
  | cons {n : Node} {ns : List Node} : Siblings dir mode (n.sibling dir mode) ns →
      Siblings dir mode (some n) (n :: ns)

/-! ### Siblings in a buffer -/

namespace PackedNode

variable {n : PackedNode} {mode : Mode} {tail : List Node}

theorem siblings_forward {i stop : Nat} {l : List Nat} (h : n.buffer.Line i stop l)
    (hlast : n.lastIndex = stop)
    (htail : Node.Siblings .forward mode (n.beside .forward mode) tail) :
    Node.Siblings .forward mode ((l.head?.map (n.moveTo n.outer)).or (n.beside .forward mode))
      (l.map (n.moveTo n.outer) ++ tail) := by
  induction h with
  | nil => exact htail
  | @node i stop _ l hinner hrest _ ih =>
      refine .cons ?_
      have hnext : (n.moveTo n.outer i).sibling .forward mode =
          (l.head?.map (n.moveTo n.outer)).or (n.beside .forward mode) := by
        have hsibling : (n.moveTo n.outer i).sibling .forward mode =
            if n.buffer.slot (i + 3) < n.lastIndex then
              some (n.moveTo n.outer (n.buffer.slot (i + 3)))
            else n.beside .forward mode := rfl
        rw [hsibling, hlast, hrest.head?]
        split <;> rfl
      rw [hnext]
      exact ih hlast

theorem siblings_backward {i : Nat} {r : List Nat} (h : n.buffer.Line n.firstIndex i r.reverse)
    (hi : i ≤ n.buffer.size)
    (htail : Node.Siblings .backward mode (n.beside .backward mode) tail) :
    Node.Siblings .backward mode ((r.head?.map (n.moveTo n.outer)).or (n.beside .backward mode))
      (r.map (n.moveTo n.outer) ++ tail) := by
  induction r generalizing i with
  | nil => exact htail
  | cons x r ih =>
      rw [List.reverse_cons] at h
      obtain ⟨hbefore, hrest⟩ := h.split
      have hx := hrest.le
      rw [List.length_singleton] at hx
      refine .cons ?_
      have hprev : (n.moveTo n.outer x).sibling .backward mode =
          (r.head?.map (n.moveTo n.outer)).or (n.beside .backward mode) := by
        have hsibling : (n.moveTo n.outer x).sibling .backward mode =
            if x = n.firstIndex then n.beside .backward mode
            else (n.buffer.find .backward .any 0 n.firstIndex x).map (n.moveTo n.outer) := rfl
        rw [hsibling, hbefore.find_any (by omega), Direction.order, List.reverse_reverse]
        cases r with
        | nil =>
            -- the first one stands where the row begins
            rw [List.reverse_nil] at hbefore
            cases hbefore
            rw [if_pos rfl]
            rfl
        | cons y r =>
            have := hbefore.le
            rw [List.length_reverse, List.length_cons] at this
            rw [if_neg (by omega)]
            rfl
      rw [hprev]
      exact ih hbefore (by omega)

/-- Siblings in a buffer, and then beside the buffer. -/
theorem siblings_line (dir : Direction) {l : List Nat}
    (h : n.buffer.Line n.firstIndex n.lastIndex l) (hsize : n.lastIndex ≤ n.buffer.size)
    (htail : Node.Siblings dir mode (n.beside dir mode) tail) :
    Node.Siblings dir mode (((dir.order l).head?.map (n.moveTo n.outer)).or (n.beside dir mode))
      ((dir.order l).map (n.moveTo n.outer) ++ tail) := by
  cases dir with
  | forward => exact siblings_forward h rfl htail
  | backward =>
      refine siblings_backward (i := n.lastIndex) ?_ hsize htail
      rwa [Direction.order, List.reverse_reverse]

end PackedNode

/-! ### Siblings among children -/

namespace BranchNode

/-- Among two runs of children a search goes through the nearer one first. -/
theorem searchAmong_append (q : Query) (n : BranchNode) (k : Nat) (cs cs' : List (Nat × Tree)) :
    searchAmong q n k (cs ++ cs') =
      match q.dir with
      | .forward => (searchAmong q n k cs).or (searchAmong q n (k + cs.length) cs')
      | .backward => (searchAmong q n (k + cs.length) cs').or (searchAmong q n k cs) := by
  induction cs generalizing k with
  | nil => cases hdir : q.dir <;> simp [searchAmong]
  | cons c cs ih =>
      obtain ⟨pos, t⟩ := c
      have hindex : k + ((pos, t) :: cs).length = k + 1 + cs.length := by
        rw [List.length_cons]
        omega
      rw [List.cons_append, searchAmong, ih, hindex, searchAmong]
      cases hdir : q.dir with
      | forward => cases searchAt q n k pos t <;> rfl
      | backward =>
          cases searchAmong q n (k + 1 + cs.length) cs' <;>
            cases searchAmong q n (k + 1) cs <;> rfl

/-- What a search goes on with beside a branch that it looks through. -/
def onward (q : Query) (n : BranchNode) : Option Node :=
  if q.mode.includeAnonymous || !n.tree.isAnonymous then none
  else
    match n.above with
    | [] => none
    | u :: rest => search q ⟨u.tree, u.start, rest⟩ (q.dir.beside u.index)

theorem search_eq_or (q : Query) (n : BranchNode) (k : Nat) :
    n.search q k = (n.searchHere q k).or (n.onward q) := by
  obtain ⟨tree, start, above⟩ := n
  cases above with
  | nil =>
      rw [search, searchFrom, onward]
      split <;> simp
  | cons u rest =>
      rw [search, searchFrom, onward]
      cases searchHere q ⟨tree, start, u :: rest⟩ k <;> rfl

/-- **A search from the near side of some children** goes through them and on from their far
side. -/
theorem search_split (q : Query) {n : BranchNode} {before cs after : List (Nat × Tree)}
    (h : n.tree.children = before ++ (cs ++ after)) :
    n.search q (q.dir.near before.length cs.length) =
      (searchAmong q n before.length cs).or
        (n.search q (q.dir.far before.length cs.length)) := by
  rw [search_eq_or, search_eq_or q n (q.dir.far before.length cs.length), searchHere, searchHere, h]
  cases hdir : q.dir with
  | forward =>
      have happend := searchAmong_append q n before.length cs after
      rw [hdir] at happend
      simp only [Direction.near, Direction.far] at happend ⊢
      rw [List.drop_left, happend, ← List.append_assoc, ← List.length_append, List.drop_left,
        List.length_append, Option.or_assoc]
  | backward =>
      have happend := searchAmong_append q n 0 before cs
      rw [hdir, Nat.zero_add] at happend
      simp only [Direction.near, Direction.far] at happend ⊢
      rw [List.take_left, ← List.append_assoc, ← List.length_append, List.take_left, happend,
        Option.or_assoc]

/-- Behind all children of a branch a search goes on beside it. -/
theorem search_far (q : Query) (n : BranchNode) :
    n.search q (q.dir.far 0 n.tree.children.length) = n.onward q := by
  rw [search_eq_or, searchHere]
  cases hdir : q.dir with
  | forward => simp [Direction.far, searchAmong]
  | backward => simp [Direction.far, searchAmong]

/-- Behind all children of a branch that is looked through a search goes on beside the branch. -/
theorem search_far_enter {q : Query} {t : Tree} (n : BranchNode) (k start : Nat)
    (h : ¬ (q.mode.includeAnonymous || !t.isAnonymous) = true) :
    (n.enter k start t).search q (q.dir.far 0 t.children.length) = n.search q (q.dir.far k 1) := by
  have hfar : (n.enter k start t).search q (q.dir.far 0 t.children.length) =
      (n.enter k start t).onward q := search_far q _
  rw [hfar, onward, show (n.enter k start t).tree = t from rfl, if_neg h, Direction.far_one]
  rfl

theorem searchAmong_singleton (q : Query) (n : BranchNode) (k pos : Nat) (t : Tree) :
    searchAmong q n k [(pos, t)] = searchAt q n k pos t := by
  rw [searchAmong]
  cases q.dir <;> cases searchAt q n k pos t <;> simp [searchAmong]

mutual

/-- The siblings that are found from the near side of a child on, if `tail` are those that are found
from its far side on. -/
theorem siblings_at (dir : Direction) (mode : Mode) (n : BranchNode) (pos : Nat)
    (before after : List (Nat × Tree)) (tail : List Node) :
    ∀ t : Tree, (∀ b ∈ t.buffers, b.Valid) → n.tree.children = before ++ ([(pos, t)] ++ after) →
      Node.Siblings dir mode (n.search { dir, mode } (dir.far before.length 1)) tail →
      Node.Siblings dir mode (n.search { dir, mode } (dir.near before.length 1))
        (dir.order (viewAt mode n before.length pos t) ++ tail)
  | .packed b, hvalid, hsplit, htail => by
      have hsearch := search_split { dir, mode } hsplit
      obtain ⟨l, hline⟩ := (hvalid b (by simp [Tree.buffers])).exists_line
      rw [List.length_singleton, searchAmong_singleton, searchAt] at hsearch
      rw [hsearch, viewAt, hline.places_eq (Nat.le_refl _)]
      by_cases hexclude : mode.excludeBuffers = true
      · simpa [hexclude] using htail
      · let m : PackedNode := ⟨n, b, before.length, pos + n.start, [], 0⟩
        have hbeside : Node.Siblings dir mode (m.beside dir mode) tail := by
          rwa [Direction.far_one] at htail
        have key := m.siblings_line dir hline (Nat.le_refl _) hbeside
        simp only [hexclude, Bool.not_false, Side.holds_any, Bool.and_self, if_true,
          hline.find_any (Nat.le_refl _), Bool.false_eq_true, if_false, Direction.order_map,
          Direction.far_one]
        exact key
  | .branch stamp ty cs len ps, hvalid, hsplit, htail => by
      have hsearch := search_split { dir, mode } hsplit
      rw [List.length_singleton, searchAmong_singleton, searchAt] at hsearch
      rw [hsearch, viewAt]
      simp only [Side.holds_any, if_true]
      by_cases hshown : (mode.includeAnonymous || !ty.isAnonymous) = true
      · rw [if_pos hshown, if_pos hshown, Direction.order_singleton]
        rw [Direction.far_one] at htail
        exact .cons htail
      · -- the children stand in its place
        rw [if_neg hshown, if_neg hshown]
        let t := Tree.branch stamp ty cs len ps
        let inner := n.enter before.length (pos + n.start) t
        have hcs : inner.tree.children = [] ++ (cs ++ []) := (List.append_nil cs).symm
        have honward : inner.search { dir, mode } (dir.far 0 cs.length) =
            n.search { dir, mode } (dir.far before.length 1) :=
          search_far_enter (q := { dir, mode }) (t := t) n before.length _ hshown
        have hnear := search_split { dir, mode } hcs
        have key := siblings_among dir mode inner [] [] tail cs
          (fun b hb => hvalid b (by simpa [Tree.buffers] using hb)) hcs
          (by rwa [List.length_nil, honward])
        rw [List.length_nil] at hnear key
        rw [hnear, honward] at key
        exact key

/-- The siblings that are found from the near side of some children on. -/
theorem siblings_among (dir : Direction) (mode : Mode) (n : BranchNode)
    (before after : List (Nat × Tree)) (tail : List Node) :
    ∀ cs : List (Nat × Tree), (∀ b ∈ Tree.buffersAll cs, b.Valid) →
      n.tree.children = before ++ (cs ++ after) →
      Node.Siblings dir mode (n.search { dir, mode } (dir.far before.length cs.length)) tail →
      Node.Siblings dir mode (n.search { dir, mode } (dir.near before.length cs.length))
        (dir.order (viewAmong mode n before.length cs) ++ tail)
  | [], _, _, htail => by
      cases dir <;> simpa [viewAmong, Direction.order, Direction.near, Direction.far] using htail
  | (pos, t) :: rest, hvalid, hsplit, htail => by
      have hone : n.tree.children = before ++ ([(pos, t)] ++ (rest ++ after)) := hsplit
      have hrest : n.tree.children = (before ++ [(pos, t)]) ++ (rest ++ after) := by
        rw [hsplit]
        simp
      have hfirst := fun tail => siblings_at dir mode n pos before (rest ++ after) tail t
        (fun b hb => hvalid b (List.mem_append_left _ hb)) hone
      have hnext := fun tail => siblings_among dir mode n (before ++ [(pos, t)]) after tail rest
        (fun b hb => hvalid b (List.mem_append_right _ hb)) hrest
      rw [List.length_append, List.length_singleton] at hnext
      rw [viewAmong]
      rw [List.length_cons] at htail ⊢
      cases dir with
      | forward =>
          simp only [Direction.order, Direction.near, Direction.far] at *
          rw [List.append_assoc]
          exact hfirst _ (hnext _ (by rwa [Nat.add_comm rest.length, ← Nat.add_assoc] at htail))
      | backward =>
          simp only [Direction.order, Direction.near, Direction.far] at *
          rw [List.reverse_append, List.append_assoc, Nat.add_comm rest.length, ← Nat.add_assoc]
          exact hnext _ (hfirst _ htail)

end

end BranchNode

/-! ### Parents -/

theorem Tree.mem_buffers_of_children {t : Tree} {b : Buffer}
    (h : b ∈ Tree.buffersAll t.children) : b ∈ t.buffers := by
  cases t with
  | branch stamp ty cs len ps => exact h
  | packed b => cases h

/-- What navigation needs of a node: valid buffers below it, and a node that it stops at. -/
def Node.Sound (mode : Mode) : Node → Prop
  | .branch n => (∀ b ∈ n.tree.buffers, b.Valid) ∧
      (mode.includeAnonymous || !n.tree.isAnonymous) = true
  | .packed n => mode.excludeBuffers = false ∧ n.slot 3 ≤ n.buffer.size ∧
      ∃ l, n.buffer.Line (n.index + 4) (n.slot 3) l

/-- How much of the tree lies inside of a node. -/
def Node.extent : Node → Nat
  | .branch n => n.tree.weight
  | .packed n => n.slot 3 - n.index

/-- The places of the children that lead from the root to a branch. -/
def BranchNode.trail (n : BranchNode) : List Nat := (n.above.map Up.index).reverse

/-- The places and indices that lead from the root to a node. -/
def Node.trail : Node → List Nat
  | .branch n => n.trail
  | .packed n => n.parent.trail ++ n.place :: (n.outer.reverse ++ [n.index])

theorem BranchNode.trail_enter (n : BranchNode) (k start : Nat) (t : Tree) :
    (n.enter k start t).trail = n.trail ++ [k] := by
  simp [BranchNode.trail, BranchNode.enter]

theorem BranchNode.rootTree_enter (n : BranchNode) (k start : Nat) (t : Tree) :
    (n.enter k start t).rootTree = n.rootTree := by
  obtain ⟨tree, start', above⟩ := n
  cases above with
  | nil => rfl
  | cons u rest => rw [rootTree, rootTree, enter, List.getLast?_cons_cons, List.getLast?_cons]; rfl

/-- The branch that stands for a branch when it is asked for from below. -/
def BranchNode.stand (mode : Mode) (n : BranchNode) : BranchNode :=
  if mode.includeAnonymous then n else n.significant

/-- A node that navigation stops at stands for itself. -/
theorem BranchNode.stand_eq {mode : Mode} {n : BranchNode}
    (h : (mode.includeAnonymous || !n.tree.isAnonymous) = true) : n.stand mode = n := by
  obtain ⟨tree, start, above⟩ := n
  rw [BranchNode.stand]
  split
  · rfl
  · rename_i hmode
    rw [Bool.or_eq_true, Bool.not_eq_true'] at h
    have hnamed : tree.isAnonymous = false := h.resolve_left hmode
    cases above with
    | nil => rfl
    | cons u rest =>
        rw [BranchNode.significant, BranchNode.significantFrom, hnamed]
        rfl

/-- A branch that navigation looks through leaves its place to the one above. -/
theorem BranchNode.stand_enter {mode : Mode} (n : BranchNode) (k start : Nat) {t : Tree}
    (h : ¬ (mode.includeAnonymous || !t.isAnonymous) = true) :
    (n.enter k start t).stand mode = n.stand mode := by
  rw [Bool.or_eq_true, Bool.not_eq_true', not_or, Bool.not_eq_false] at h
  rw [BranchNode.stand, BranchNode.stand, if_neg h.1, if_neg h.1, BranchNode.significant,
    BranchNode.enter, BranchNode.significantFrom, if_pos h.2]
  rfl

namespace BranchNode

/-- What is known of a node that is shown of the child of a branch at a place. -/
structure Shows (mode : Mode) (n : BranchNode) (k weight : Nat) (c : Node) : Prop where
  parent : c.parentIn mode.includeAnonymous = some (.branch (n.stand mode))
  sound : c.Sound mode
  trail : ∃ rest, c.trail = n.trail ++ k :: rest
  root : c.rootTree = n.rootTree
  extent : c.extent ≤ weight

mutual

theorem shows_of_mem_viewAt (mode : Mode) (n : BranchNode) (k pos : Nat) :
    ∀ t : Tree, (∀ b ∈ t.buffers, b.Valid) → ∀ c ∈ viewAt mode n k pos t, Shows mode n k t.weight c
  | .packed b, hvalid, c, hc => by
      obtain ⟨l, hline⟩ := (hvalid b (by simp [Tree.buffers])).exists_line
      rw [viewAt, hline.places_eq (Nat.le_refl _)] at hc
      split at hc
      · cases hc
      · rename_i hexclude
        obtain ⟨i, hi, rfl⟩ := List.mem_map.1 hc
        obtain ⟨hle, inner, hinner⟩ := hline.inner hi
        refine ⟨rfl, ⟨by simpa using hexclude, hle, inner, hinner⟩, ⟨[i], rfl⟩, rfl, ?_⟩
        rw [Tree.weight]
        have : (Node.packed ⟨n, b, k, pos + n.start, [], i⟩).extent = b.slot (i + 3) - i := rfl
        omega
  | .branch stamp ty cs len ps, hvalid, c, hc => by
      rw [viewAt] at hc
      split at hc
      · rename_i hshown
        obtain rfl := List.mem_singleton.1 hc
        exact ⟨rfl, ⟨hvalid, hshown⟩, ⟨[], n.trail_enter _ _ _⟩, n.rootTree_enter _ _ _,
          Nat.le_refl _⟩
      · rename_i hshown
        obtain ⟨j, hj⟩ := shows_of_mem_viewAmong mode _ cs 0
          (fun b hb => hvalid b (by simpa [Tree.buffers] using hb)) c hc
        obtain ⟨rest, hrest⟩ := hj.trail
        refine ⟨?_, hj.sound, ⟨(0 + j) :: rest, ?_⟩, ?_, ?_⟩
        · rw [hj.parent, stand_enter _ _ _ hshown]
        · rw [hrest, trail_enter, List.append_assoc, List.singleton_append]
        · rw [hj.root, rootTree_enter]
        · have := hj.extent
          rw [Tree.weight]
          omega

theorem shows_of_mem_viewAmong (mode : Mode) (n : BranchNode) :
    ∀ (cs : List (Nat × Tree)) (k : Nat), (∀ b ∈ Tree.buffersAll cs, b.Valid) →
      ∀ c ∈ viewAmong mode n k cs, ∃ j, Shows mode n (k + j) (Tree.weightAll cs) c
  | [], _, _, _, hc => by cases hc
  | (pos, t) :: rest, k, hvalid, c, hc => by
      rw [viewAmong] at hc
      rw [Tree.weightAll]
      rcases List.mem_append.1 hc with hc | hc
      · have key := shows_of_mem_viewAt mode n k pos t
          (fun b hb => hvalid b (List.mem_append_left _ hb)) c hc
        exact ⟨0, key.parent, key.sound, key.trail, key.root, Nat.le_add_right_of_le key.extent⟩
      · obtain ⟨j, key⟩ := shows_of_mem_viewAmong mode n rest (k + 1)
          (fun b hb => hvalid b (List.mem_append_right _ hb)) c hc
        rw [Nat.add_assoc, Nat.add_comm 1] at key
        exact ⟨j + 1, key.parent, key.sound, key.trail, key.root,
          Nat.le_add_left_of_le key.extent⟩

end

end BranchNode

/-! ### View children are apart -/

/-- Nodes neither of which lies inside of the other one. -/
def Node.Apart (c d : Node) : Prop := ¬ c.trail <+: d.trail ∧ ¬ d.trail <+: c.trail

theorem Node.apart_of_ne {c d : Node} (trail r r' : List Nat) {j k : Nat} (hjk : j ≠ k)
    (hc : c.trail = trail ++ j :: r) (hd : d.trail = trail ++ k :: r') : c.Apart d := by
  rw [Apart, hc, hd, List.prefix_append_right_inj, List.prefix_append_right_inj,
    List.cons_prefix_cons, List.cons_prefix_cons]
  exact ⟨fun h => hjk h.1, fun h => hjk h.1.symm⟩

/-- What lies inside of nodes that are apart is apart. -/
theorem Node.Apart.below {c d c' d' : Node} (h : c.Apart d) (hc : c.trail <+: c'.trail)
    (hd : d.trail <+: d'.trail) : c'.Apart d' := by
  constructor
  · intro hle
    rcases List.prefix_or_prefix_of_prefix (hc.trans hle) hd with h' | h'
    · exact h.1 h'
    · exact h.2 h'
  · intro hle
    rcases List.prefix_or_prefix_of_prefix hc (hd.trans hle) with h' | h'
    · exact h.1 h'
    · exact h.2 h'

namespace BranchNode

mutual

theorem apart_viewAt (mode : Mode) (n : BranchNode) (k pos : Nat) :
    ∀ t : Tree, (∀ b ∈ t.buffers, b.Valid) → (viewAt mode n k pos t).Pairwise Node.Apart
  | .packed b, hvalid => by
      obtain ⟨l, hline⟩ := (hvalid b (by simp [Tree.buffers])).exists_line
      rw [viewAt, hline.places_eq (Nat.le_refl _)]
      split
      · exact .nil
      · refine List.pairwise_map.2 (hline.nodup.imp fun {i j} hij => ?_)
        exact Node.apart_of_ne (n.trail ++ [k]) [] [] hij
          (by simp [Node.trail]) (by simp [Node.trail])
  | .branch stamp ty cs len ps, hvalid => by
      rw [viewAt]
      split
      · exact List.pairwise_singleton _ _
      · exact apart_viewAmong mode _ cs 0 fun b hb => hvalid b (by simpa [Tree.buffers] using hb)

theorem apart_viewAmong (mode : Mode) (n : BranchNode) :
    ∀ (cs : List (Nat × Tree)) (k : Nat), (∀ b ∈ Tree.buffersAll cs, b.Valid) →
      (viewAmong mode n k cs).Pairwise Node.Apart
  | [], _, _ => .nil
  | (pos, t) :: rest, k, hvalid => by
      have hfirst : ∀ b ∈ t.buffers, b.Valid := fun b hb => hvalid b (List.mem_append_left _ hb)
      have hrest : ∀ b ∈ Tree.buffersAll rest, b.Valid := fun b hb =>
        hvalid b (List.mem_append_right _ hb)
      rw [viewAmong]
      refine List.pairwise_append.2 ⟨apart_viewAt mode n k pos t hfirst,
        apart_viewAmong mode n rest (k + 1) hrest, fun c hc d hd => ?_⟩
      obtain ⟨r, hr⟩ := (shows_of_mem_viewAt mode n k pos t hfirst c hc).trail
      obtain ⟨j, hj⟩ := shows_of_mem_viewAmong mode n rest (k + 1) hrest d hd
      obtain ⟨r', hr'⟩ := hj.trail
      exact Node.apart_of_ne _ r r' (by omega) hr hr'

end

end BranchNode

/-! ### Room -/

theorem Tree.weightAll_children_lt (t : Tree) : weightAll t.children < t.weight := by
  cases t with
  | branch stamp ty cs len ps => exact Nat.lt_add_of_pos_left Nat.one_pos
  | packed b => exact weight_pos _

/-- The total extent of nodes. -/
def Node.extentAll : List Node → Nat
  | [] => 0
  | n :: ns => n.extent + extentAll ns

theorem Node.extentAll_cons (n : Node) (ns : List Node) :
    extentAll (n :: ns) = n.extent + extentAll ns :=
  rfl

theorem Node.extentAll_append (ns ns' : List Node) :
    extentAll (ns ++ ns') = extentAll ns + extentAll ns' := by
  induction ns with
  | nil => rw [List.nil_append, extentAll, Nat.zero_add]
  | cons n ns ih => rw [List.cons_append, extentAll_cons, ih, extentAll_cons, Nat.add_assoc]

/-- Nodes beside each other in a buffer have room beside each other. -/
theorem Buffer.Line.extentAll_le {b : Buffer} {i stop : Nat} {l : List Nat} (h : b.Line i stop l)
    (view : Nat → Node) (hview : ∀ j, (view j).extent = b.slot (j + 3) - j) :
    i + Node.extentAll (l.map view) ≤ stop := by
  induction h with
  | nil => exact Nat.le_refl _
  | node hinner hrest _ ih =>
      have := hinner.le
      rw [List.map_cons, Node.extentAll_cons, hview]
      omega

namespace BranchNode

mutual

/-- What navigation shows of a child is not larger than the child. -/
theorem extentAll_viewAt (mode : Mode) (n : BranchNode) (k pos : Nat) : ∀ t : Tree,
    (∀ b ∈ t.buffers, b.Valid) → Node.extentAll (viewAt mode n k pos t) ≤ t.weight
  | .packed b, hvalid => by
      obtain ⟨l, hline⟩ := (hvalid b (by simp [Tree.buffers])).exists_line
      rw [viewAt, hline.places_eq (Nat.le_refl _), Tree.weight]
      split
      · exact Nat.zero_le _
      · have := hline.extentAll_le (fun i => Node.packed ⟨n, b, k, pos + n.start, [], i⟩)
          fun _ => rfl
        omega
  | .branch stamp ty cs len ps, hvalid => by
      have hcs := fun inner => extentAll_viewAmong mode inner cs 0
        fun b hb => hvalid b (by simpa [Tree.buffers] using hb)
      rw [viewAt]
      split
      · exact Nat.le_refl _
      · rw [Tree.weight]
        exact Nat.le_add_left_of_le (hcs _)

theorem extentAll_viewAmong (mode : Mode) (n : BranchNode) : ∀ (cs : List (Nat × Tree)) (k : Nat),
    (∀ b ∈ Tree.buffersAll cs, b.Valid) →
      Node.extentAll (viewAmong mode n k cs) ≤ Tree.weightAll cs
  | [], _, _ => Nat.le_refl _
  | (pos, t) :: rest, k, hvalid => by
      rw [viewAmong, Node.extentAll_append, Tree.weightAll]
      exact Nat.add_le_add
        (extentAll_viewAt mode n k pos t fun b hb => hvalid b (List.mem_append_left _ hb))
        (extentAll_viewAmong mode n rest (k + 1) fun b hb => hvalid b (List.mem_append_right _ hb))

end

end BranchNode

/-! ### Nodes and their view children -/

namespace Node

variable {mode : Mode} {n c : Node}

/-- **First child and next siblings go through the view children**, from either end. -/
theorem siblings_child (h : n.Sound mode) (dir : Direction) :
    Siblings dir mode (n.child { dir, mode }) (dir.order (n.view mode)) := by
  cases n with
  | branch n =>
      have hend : Siblings dir mode (n.search { dir, mode }
          (dir.far 0 n.tree.children.length)) [] := by
        rw [BranchNode.search_far { dir, mode }, BranchNode.onward, if_pos h.2]
        exact .nil
      have key := BranchNode.siblings_among dir mode n [] [] [] n.tree.children
        (fun b hb => h.1 b (Tree.mem_buffers_of_children hb)) (by simp) hend
      rw [List.append_nil, List.length_nil] at key
      cases dir with
      | forward => exact key
      | backward =>
          rw [Direction.near, Nat.zero_add] at key
          exact key
  | packed n =>
      obtain ⟨hmode, hsize, l, hline⟩ := h
      have key := PackedNode.siblings_line (n := { n with outer := n.index :: n.outer })
        dir hline hsize (Siblings.nil : Siblings dir mode none [])
      have hchild : (Node.packed n).child { dir, mode } =
          (n.buffer.find dir .any (0 - n.start) (n.index + 4) (n.slot 3)).map
            (n.moveTo (n.index :: n.outer)) := by
        rw [child, PackedNode.child, if_neg (by simp [hmode])]
      rw [List.append_nil] at key
      rw [hchild, hline.find_any hsize, view, if_neg (by simp [hmode]), hline.places_eq hsize,
        Direction.order_map]
      rwa [show ({ n with outer := n.index :: n.outer } : PackedNode).beside dir mode = none from
        rfl, Option.or_none] at key

/-- A view child of a branch is shown of one of its children. -/
theorem shows_of_mem_view {n : BranchNode} (h : (Node.branch n).Sound mode)
    (hc : c ∈ (Node.branch n).view mode) :
    ∃ k, BranchNode.Shows mode n k (Tree.weightAll n.tree.children) c := by
  obtain ⟨j, hj⟩ := BranchNode.shows_of_mem_viewAmong mode n n.tree.children 0
    (fun b hb => h.1 b (Tree.mem_buffers_of_children hb)) c hc
  exact ⟨0 + j, hj⟩

/-- The view children of a node in a buffer. -/
theorem mem_view_packed {n : PackedNode} (h : (Node.packed n).Sound mode) :
    ∃ l, n.buffer.Line (n.index + 4) (n.slot 3) l ∧
      (Node.packed n).view mode = l.map (n.moveTo (n.index :: n.outer)) := by
  obtain ⟨hmode, hsize, l, hline⟩ := h
  refine ⟨l, hline, ?_⟩
  rw [view, if_neg (by simp [hmode]), hline.places_eq hsize]

/-- **The parent of a view child is the node itself.** -/
theorem parentIn_of_mem_view (h : n.Sound mode) (hc : c ∈ n.view mode) :
    c.parentIn mode.includeAnonymous = some n := by
  cases n with
  | branch n =>
      obtain ⟨k, hk⟩ := shows_of_mem_view h hc
      rw [hk.parent, BranchNode.stand_eq h.2]
  | packed n =>
      obtain ⟨l, -, hview⟩ := mem_view_packed h
      rw [hview] at hc
      obtain ⟨i, -, rfl⟩ := List.mem_map.1 hc
      rfl

theorem Sound.of_mem_view (h : n.Sound mode) (hc : c ∈ n.view mode) : c.Sound mode := by
  cases n with
  | branch n =>
      obtain ⟨k, hk⟩ := shows_of_mem_view h hc
      exact hk.sound
  | packed n =>
      obtain ⟨l, hline, hview⟩ := mem_view_packed h
      rw [hview] at hc
      obtain ⟨i, hi, rfl⟩ := List.mem_map.1 hc
      obtain ⟨hle, hinner⟩ := hline.inner hi
      exact ⟨h.1, Nat.le_trans hle h.2.1, hinner⟩

theorem rootTree_of_mem_view (h : n.Sound mode) (hc : c ∈ n.view mode) :
    c.rootTree = n.rootTree := by
  cases n with
  | branch n =>
      obtain ⟨k, hk⟩ := shows_of_mem_view h hc
      exact hk.root
  | packed n =>
      obtain ⟨l, -, hview⟩ := mem_view_packed h
      rw [hview] at hc
      obtain ⟨i, -, rfl⟩ := List.mem_map.1 hc
      rfl

theorem extent_lt_of_mem_view (h : n.Sound mode) (hc : c ∈ n.view mode) :
    c.extent < n.extent := by
  cases n with
  | branch n =>
      obtain ⟨k, hk⟩ := shows_of_mem_view h hc
      exact Nat.lt_of_le_of_lt hk.extent (Tree.weightAll_children_lt _)
  | packed n =>
      obtain ⟨l, hline, hview⟩ := mem_view_packed h
      rw [hview] at hc
      obtain ⟨i, hi, rfl⟩ := List.mem_map.1 hc
      have hle := (hline.inner hi).1
      have hbounds := hline.le_of_mem hi
      have : (n.moveTo (n.index :: n.outer) i).extent = n.buffer.slot (i + 3) - i := rfl
      have : (Node.packed n).extent = n.slot 3 - n.index := rfl
      omega

theorem trail_of_mem_view (h : n.Sound mode) (hc : c ∈ n.view mode) :
    ∃ x rest, c.trail = n.trail ++ x :: rest := by
  cases n with
  | branch n =>
      obtain ⟨k, hk⟩ := shows_of_mem_view h hc
      exact ⟨k, hk.trail⟩
  | packed n =>
      obtain ⟨l, -, hview⟩ := mem_view_packed h
      rw [hview] at hc
      obtain ⟨i, -, rfl⟩ := List.mem_map.1 hc
      exact ⟨i, [], by simp [trail, PackedNode.moveTo]⟩

/-- View children of a node are apart. -/
theorem apart_view (h : n.Sound mode) : (n.view mode).Pairwise Apart := by
  cases n with
  | branch n =>
      exact BranchNode.apart_viewAmong mode n n.tree.children 0
        fun b hb => h.1 b (Tree.mem_buffers_of_children hb)
  | packed n =>
      obtain ⟨l, hline, hview⟩ := mem_view_packed h
      rw [hview]
      refine List.pairwise_map.2 (hline.nodup.imp fun {i j} hij => ?_)
      exact apart_of_ne (Node.packed n).trail [] [] hij
        (by simp [trail, PackedNode.moveTo]) (by simp [trail, PackedNode.moveTo])

theorem Sound.extent_pos (h : n.Sound mode) : 0 < n.extent := by
  cases n with
  | branch n => exact n.tree.weight_pos
  | packed n =>
      obtain ⟨-, -, l, hline⟩ := h
      have := hline.le
      exact Nat.sub_pos_of_lt (by omega)

/-- View children are together smaller than the node. -/
theorem extentAll_view_lt (h : n.Sound mode) : extentAll (n.view mode) < n.extent := by
  cases n with
  | branch n =>
      exact Nat.lt_of_le_of_lt (BranchNode.extentAll_viewAmong mode n n.tree.children 0
        fun b hb => h.1 b (Tree.mem_buffers_of_children hb)) (Tree.weightAll_children_lt _)
  | packed n =>
      obtain ⟨l, hline, hview⟩ := mem_view_packed h
      have hle := hline.extentAll_le (n.moveTo (n.index :: n.outer)) fun _ => rfl
      have hextent : (Node.packed n).extent = n.slot 3 - n.index := rfl
      rw [hview, hextent]
      change _ ≤ n.slot 3 at hle
      omega

end Node

end IncrementalLR
