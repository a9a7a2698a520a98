/-
**Walks go through all nodes in order.**

Going on from a node means going to its first child, or else to the next sibling of the nearest node
above it that has one.  So a walk from the root goes through the whole tree in pre-order, and ends
when it has climbed back to the root; with last children and siblings before it goes from right to
left.  No node comes up twice, because different nodes are found in different places.

Main definitions:

* `Node.Reaches` — the view nodes below a node;
* `Node.PreOrder` — the nodes of a forest in pre-order;
* `Cursor.Goes` — what a cursor goes through when a move is repeated.

Main results:

* `Node.PreOrder.mem_iff`, `Node.PreOrder.nodup` — **every view node comes up exactly once**;
* `Cursor.goes_preOrder` — a walk through siblings and everything below them;
* `Tree.navigation` — **what moves and walks go through**.
-/

import IncrementalLR.Proofs.Views
import IncrementalLR.Tree.Cursor

set_option relaxedAutoImplicit false
set_option autoImplicit false

namespace IncrementalLR

namespace Node

/-! ### View nodes -/

/-- A view node below a node, or the node itself. -/
inductive Reaches (mode : Mode) : Node → Node → Prop
  | refl (n : Node) : Reaches mode n n
  | step {n c x : Node} : c ∈ n.view mode → Reaches mode c x → Reaches mode n x

/-- The nodes of a forest in pre-order: a node, then what lies below it in the order of its view
children, then what comes beside it. -/
inductive PreOrder (dir : Direction) (mode : Mode) : List Node → List Node → Prop
  | nil : PreOrder dir mode [] []
  | cons {n : Node} {ns inner outer : List Node} :
      PreOrder dir mode (dir.order (n.view mode)) inner → PreOrder dir mode ns outer →
      PreOrder dir mode (n :: ns) (n :: (inner ++ outer))

variable {dir : Direction} {mode : Mode} {n x : Node} {ns l : List Node}

theorem Reaches.sound (h : Reaches mode n x) (hn : n.Sound mode) : x.Sound mode := by
  induction h with
  | refl => exact hn
  | step hc _ ih => exact ih (hn.of_mem_view hc)

/-- A node is found further down on the same way. -/
theorem Reaches.trail_along (h : Reaches mode n x) (hn : n.Sound mode) :
    n.trail <+: x.trail := by
  induction h with
  | refl => exact List.prefix_refl _
  | step hc _ ih =>
      obtain ⟨y, rest, heq⟩ := trail_of_mem_view hn hc
      exact (heq ▸ List.prefix_append _ _ : _ <+: _).trans (ih (hn.of_mem_view hc))

/-! ### Forests in pre-order -/

theorem extentAll_order (ns : List Node) : extentAll (dir.order ns) = extentAll ns := by
  cases dir with
  | forward => rfl
  | backward =>
      induction ns with
      | nil => rfl
      | cons n ns ih =>
          rw [Direction.order] at ih ⊢
          rw [List.reverse_cons, extentAll_append, ih, extentAll_cons, extentAll_cons, extentAll]
          omega

/-- What holds of a forest whenever it holds of what is below its first node and of the other nodes
holds of all forests. -/
theorem forest_induction (dir : Direction) {P : List Node → Prop} (nil : P [])
    (cons : ∀ n ns, P (dir.order (n.view mode)) → P ns → P (n :: ns))
    (h : ∀ n ∈ ns, n.Sound mode) : P ns := by
  -- on what the nodes hold
  generalize hsize : extentAll ns = size
  induction size using Nat.strongRecOn generalizing ns with
  | ind size ih =>
      cases ns with
      | nil => exact nil
      | cons n ns =>
          obtain ⟨hn, hns⟩ := List.forall_mem_cons.1 h
          have hview := extentAll_view_lt hn
          have hpos := hn.extent_pos
          rw [extentAll_cons] at hsize
          refine cons n ns (ih _ ?_ (fun c hc => ?_) (extentAll_order _)) (ih _ ?_ hns rfl)
          · omega
          · exact hn.of_mem_view (dir.mem_order.1 hc)
          · omega

theorem exists_preOrder (dir : Direction) (h : ∀ n ∈ ns, n.Sound mode) :
    ∃ l, PreOrder dir mode ns l := by
  refine forest_induction dir (P := fun ns => ∃ l, PreOrder dir mode ns l) ⟨[], .nil⟩
    (fun n ns hview hns => ?_) h
  obtain ⟨inner, hinner⟩ := hview
  obtain ⟨outer, houter⟩ := hns
  exact ⟨_, .cons hinner houter⟩

/-- **Every view node comes up.** -/
theorem PreOrder.mem_iff (h : PreOrder dir mode ns l) :
    x ∈ l ↔ ∃ n ∈ ns, Reaches mode n x := by
  induction h with
  | nil => simp
  | @cons n ns inner outer _ _ ihInner ihOuter =>
      rw [List.mem_cons, List.mem_append, ihInner, ihOuter]
      constructor
      · rintro (rfl | ⟨c, hc, hx⟩ | ⟨m, hm, hx⟩)
        · exact ⟨x, List.mem_cons_self, .refl x⟩
        · exact ⟨n, List.mem_cons_self, .step (dir.mem_order.1 hc) hx⟩
        · exact ⟨m, List.mem_cons_of_mem _ hm, hx⟩
      · rintro ⟨m, hm, hx⟩
        rcases List.mem_cons.1 hm with rfl | hm
        · cases hx with
          | refl => exact Or.inl rfl
          | step hc hx => exact Or.inr (Or.inl ⟨_, dir.mem_order.2 hc, hx⟩)
        · exact Or.inr (Or.inr ⟨m, hm, hx⟩)

/-- **No view node comes up twice.** -/
theorem PreOrder.nodup (h : PreOrder dir mode ns l) (hns : ∀ n ∈ ns, n.Sound mode)
    (hapart : ns.Pairwise Apart) : l.Nodup := by
  induction h with
  | nil => exact .nil
  | @cons n ns inner outer hinner houter ihInner ihOuter =>
      obtain ⟨hn, hrest⟩ := List.forall_mem_cons.1 hns
      have hview : ∀ c ∈ dir.order (n.view mode), c.Sound mode := fun c hc =>
        hn.of_mem_view (dir.mem_order.1 hc)
      have hviewApart : (dir.order (n.view mode)).Pairwise Apart :=
        ((dir.order_perm _).pairwise_iff fun hab => ⟨hab.2, hab.1⟩).2 (apart_view hn)
      -- what comes up beside a node is apart from everything in it
      have hbeside : ∀ y ∈ outer, ∀ x : Node, n.trail <+: x.trail → x.Apart y := by
        intro y hy x hx
        obtain ⟨m, hm, hreach⟩ := houter.mem_iff.1 hy
        exact (List.rel_of_pairwise_cons hapart hm).below hx (hreach.trail_along (hrest m hm))
      have hself : ∀ x : Node, ¬ x.Apart x := fun x hx => hx.1 (List.prefix_refl _)
      refine List.nodup_cons.2 ⟨fun hmem => ?_, List.nodup_append.2
        ⟨ihInner hview hviewApart, ihOuter hrest hapart.of_cons, ?_⟩⟩
      · rcases List.mem_append.1 hmem with hmem | hmem
        · obtain ⟨c, hc, hreach⟩ := hinner.mem_iff.1 hmem
          obtain ⟨y, rest, htrail⟩ := trail_of_mem_view hn (dir.mem_order.1 hc)
          have hle := (hreach.trail_along (hview c hc)).length_le
          rw [htrail, List.length_append, List.length_cons] at hle
          omega
        · exact hself n (hbeside n hmem n (List.prefix_refl _))
      · rintro x hx y hy rfl
        obtain ⟨c, hc, hreach⟩ := hinner.mem_iff.1 hx
        have hbelow := (Reaches.step (dir.mem_order.1 hc) hreach).trail_along hn
        exact hself x (hbeside x hy x hbelow)

/-! ### Depth -/

theorem length_significantFrom_le (tree : Tree) (start : Nat) (above : List Up) :
    (BranchNode.significantFrom tree start above).above.length ≤ above.length := by
  induction above generalizing tree start with
  | nil => exact Nat.le_refl _
  | cons u rest ih =>
      rw [BranchNode.significantFrom]
      split
      · exact Nat.le_trans (ih u.tree u.start) (Nat.le_succ _)
      · exact Nat.le_refl _

/-- Going up ends. -/
theorem depth_lt_of_parentIn {incl : Bool} {p : Node} (h : n.parentIn incl = some p) :
    p.depth < n.depth := by
  have hle : ∀ b : BranchNode, (if incl then b else b.significant).above.length ≤
      b.above.length := by
    intro b
    split
    · exact Nat.le_refl _
    · exact length_significantFrom_le _ _ _
  cases n with
  | branch n =>
      rw [parentIn, BranchNode.parent?] at h
      obtain ⟨tree, start, above⟩ := n
      cases above with
      | nil => cases h
      | cons u rest =>
          obtain rfl := Option.some.inj h
          exact Nat.lt_succ_of_le (hle _)
  | packed n =>
      rw [parentIn, PackedNode.outerNode] at h
      obtain rfl := Option.some.inj h
      cases houter : n.outer with
      | nil =>
          have := hle n.parent
          simp only [depth, houter, List.length_nil]
          omega
      | cons i rest =>
          simp only [depth, PackedNode.moveTo, houter, List.length_cons]
          omega

end Node

/-! ### Repeated moves -/

/-- What a cursor goes through when a move is repeated until it fails, the first move being made
already. -/
inductive Cursor.Goes (move : Cursor → Bool × Cursor) : Bool × Cursor → List Node → Prop
  | stop {c : Cursor} : Goes move (false, c) []
  | on {c : Cursor} {ns : List Node} : Goes move (move c) ns → Goes move (true, c) (c.node :: ns)

namespace Cursor

variable {dir : Direction} {mode : Mode} {n : Node} {ns l tail : List Node}

/-- A move to a node, or else another one. -/
def goOr (mode : Mode) (target : Option Node) (other : Bool × Cursor) : Bool × Cursor :=
  match target with
  | some n => (true, ⟨n, mode⟩)
  | none => other

/-- The move to the next sibling of a node or of the nearest node above it that has one. -/
def goBeside (dir : Direction) (mode : Mode) (n : Node) : Bool × Cursor :=
  besideF dir (n.depth + 1) ⟨n, mode⟩

/-- The fuel of a climb lasts up to the root. -/
theorem besideF_eq {fuel : Nat} (hfuel : n.depth < fuel) :
    besideF dir fuel ⟨n, mode⟩ = goBeside dir mode n := by
  rw [goBeside]
  generalize hbound : n.depth + 1 = bound
  replace hbound : n.depth < bound := by omega
  induction fuel generalizing n bound with
  | zero => omega
  | succ fuel ih =>
      obtain ⟨bound, rfl⟩ := Nat.exists_eq_succ_of_ne_zero (Nat.ne_of_gt (Nat.zero_lt_of_lt hbound))
      rw [besideF, besideF]
      dsimp only
      cases n.sibling dir mode with
      | some m => rfl
      | none =>
          cases hparent : n.parentIn mode.includeAnonymous with
          | none => rfl
          | some p =>
              have := Node.depth_lt_of_parentIn hparent
              exact ih (n := p) (by omega) bound (by omega)

theorem goBeside_eq {p : Node} (h : n.parentIn mode.includeAnonymous = some p) :
    goBeside dir mode n = goOr mode (n.sibling dir mode) (goBeside dir mode p) := by
  have hdepth := Node.depth_lt_of_parentIn h
  rw [← besideF_eq hdepth, goBeside, besideF]
  dsimp only
  rw [h]
  cases n.sibling dir mode <;> rfl

theorem step_eq (n : Node) :
    step ⟨n, mode⟩ dir true = goOr mode (n.child { dir, mode }) (goBeside dir mode n) := by
  rw [step]
  dsimp only
  rw [if_pos rfl]
  cases n.child { dir, mode } <;> rfl

/-- Siblings that are found one after the other are gone through. -/
theorem goes_siblings {start : Option Node} (h : Node.Siblings dir mode start ns) (n : Node) :
    Goes (fun c => c.sibling dir) (moveIf ⟨n, mode⟩ start) ns := by
  induction h generalizing n with
  | nil => exact .stop
  | @cons m _ _ ih => exact .on (ih m)

/-- A bounded walk goes through as many nodes as it has fuel for. -/
theorem Goes.walkF_eq {c : Cursor} (h : Goes (fun c => c.step dir true) (c.step dir true) l)
    (fuel : Nat) : (walkF dir fuel c).1 = l.take fuel := by
  generalize hmoved : c.step dir true = moved at h
  induction h generalizing c fuel with
  | stop =>
      cases fuel with
      | zero => rfl
      | succ fuel => rw [walkF, hmoved, List.take_nil]
  | @on c' ns _ ih =>
      cases fuel with
      | zero => rfl
      | succ fuel =>
          rw [List.take_succ_cons, ← ih fuel rfl, walkF, hmoved]

/-- **A walk through siblings goes through everything below them**, and then beside the node above
them. -/
theorem goes_preOrder (h : Node.PreOrder dir mode ns l) (hns : ∀ n ∈ ns, n.Sound mode)
    {start : Option Node} (hstart : Node.Siblings dir mode start ns) {p : Node}
    (hparent : ∀ n ∈ ns, n.parentIn mode.includeAnonymous = some p)
    (htail : Goes (fun c => c.step dir true) (goBeside dir mode p) tail) :
    Goes (fun c => c.step dir true) (goOr mode start (goBeside dir mode p)) (l ++ tail) := by
  induction h generalizing start p tail with
  | nil =>
      cases hstart
      exact htail
  | @cons n ns inner outer _ _ ihInner ihOuter =>
      obtain ⟨hn, hrest⟩ := List.forall_mem_cons.1 hns
      obtain ⟨hup, hups⟩ := List.forall_mem_cons.1 hparent
      cases hstart with
      | cons hnext =>
          have hbeside := ihOuter hrest hnext hups htail
          rw [← goBeside_eq hup] at hbeside
          have hbelow := ihInner (fun c hc => hn.of_mem_view (dir.mem_order.1 hc))
            (Node.siblings_child hn dir)
            (fun c hc => Node.parentIn_of_mem_view hn (dir.mem_order.1 hc)) hbeside
          rw [← step_eq, ← List.append_assoc] at hbelow
          exact .on hbelow

end Cursor

/-! ### Trees -/

namespace Tree

variable {t : Tree}

theorem top_sound (h : ∀ b ∈ t.buffers, b.Valid) (hnamed : t.isAnonymous = false) (mode : Mode) :
    t.top.Sound mode :=
  ⟨h, by simp [root, hnamed]⟩

/-- A walk from the root goes through all view nodes. -/
theorem goes_top (h : ∀ b ∈ t.buffers, b.Valid) (hnamed : t.isAnonymous = false)
    (dir : Direction) (mode : Mode) :
    ∃ l, Node.PreOrder dir mode [t.top] (t.top :: l) ∧ (t.top :: l).Nodup ∧
      (∀ n, n ∈ t.top :: l ↔ t.top.Reaches mode n) ∧
      Cursor.Goes (fun c => c.step dir true) ((t.cursor mode).step dir true) l := by
  have hsound := top_sound h hnamed mode
  have hview : ∀ c ∈ dir.order (t.top.view mode), c.Sound mode := fun c hc =>
    hsound.of_mem_view (dir.mem_order.1 hc)
  obtain ⟨l, hl⟩ := Node.exists_preOrder dir hview
  have hall : Node.PreOrder dir mode [t.top] (t.top :: (l ++ [])) := .cons hl .nil
  have hend : Cursor.Goes (fun c => c.step dir true) (Cursor.goBeside dir mode t.top) [] := .stop
  have key := Cursor.goes_preOrder hl hview (Node.siblings_child hsound dir)
    (fun c hc => Node.parentIn_of_mem_view hsound (dir.mem_order.1 hc)) hend
  rw [List.append_nil] at hall key
  refine ⟨l, hall, hall.nodup ?_ (List.pairwise_singleton _ _), fun n => ?_, ?_⟩
  · exact List.forall_mem_singleton.2 hsound
  · rw [hall.mem_iff]
    simp
  · rwa [← Cursor.step_eq] at key

/-- **What moves and walks go through.**  From each view node of a tree with valid buffers and a
named root, the first child and then next siblings are the view children in order, the last child
and then the siblings before are the same in reverse, and the parent of each is the node.  Going on
from the root goes through every view node exactly once in pre-order, and going on to the nodes
before does so in pre-order from right to left. -/
theorem navigation (h : ∀ b ∈ t.buffers, b.Valid) (hnamed : t.isAnonymous = false) (mode : Mode) :
    (∀ n, t.top.Reaches mode n →
      Cursor.Goes (fun c => c.sibling .forward) (Cursor.mk n mode).firstChild (n.view mode) ∧
      Cursor.Goes (fun c => c.sibling .backward) (Cursor.mk n mode).lastChild
        (n.view mode).reverse ∧
      ∀ c ∈ n.view mode, (Cursor.mk c mode).parent = (true, Cursor.mk n mode)) ∧
    (∃ l, Node.PreOrder .forward mode [t.top] (t.top :: l) ∧ (t.top :: l).Nodup ∧
      (∀ n, n ∈ t.top :: l ↔ t.top.Reaches mode n) ∧
      Cursor.Goes Cursor.next (t.cursor mode).next l) ∧
    ∃ l, Node.PreOrder .backward mode [t.top] (t.top :: l) ∧ (t.top :: l).Nodup ∧
      (∀ n, n ∈ t.top :: l ↔ t.top.Reaches mode n) ∧
      Cursor.Goes Cursor.prev (t.cursor mode).prev l := by
  refine ⟨fun n hn => ?_, goes_top h hnamed .forward mode, goes_top h hnamed .backward mode⟩
  have hsound := hn.sound (top_sound h hnamed mode)
  refine ⟨?_, ?_, fun c hc => ?_⟩
  · exact Cursor.goes_siblings (Node.siblings_child hsound .forward) n
  · exact Cursor.goes_siblings (Node.siblings_child hsound .backward) n
  · rw [Cursor.parent]
    dsimp only
    rw [Node.parentIn_of_mem_view hsound hc]
    rfl

/-- The types of a tree with named and anonymous branches. -/
def mixedSet : NodeSet :=
  ⟨#[{ epoch := 1, id := 0, name := "⚠", isError := true },
    { epoch := 1, id := 1, name := "Top", isTop := true },
    { epoch := 1, id := 2, name := "" }, { epoch := 1, id := 3, name := "A" },
    { epoch := 1, id := 4, name := "B" }, { epoch := 1, id := 5, name := "C" }]⟩

/-- A node in a buffer with another one inside of it. -/
def mixedBuffer : Buffer := { slots := #[3, 0, 2, 8, 4, 0, 1, 8], length := 2, set := mixedSet }

/-- A tree with siblings in different anonymous branches, one of them empty, and in buffers. -/
def mixedTree : Tree :=
  let node := fun id cs len => Tree.branch none ((mixedSet.get? id).getD .none) cs len []
  node 1
    [(0, node 2 [(0, .packed mixedBuffer), (2, node 2 [] 0), (2, node 4 [] 1)] 3),
      (3, .packed { slots := #[5, 0, 1, 4], length := 1, set := mixedSet }),
      (4, node 5 [(0, .packed mixedBuffer)] 2)] 6

/-- Its nodes, from either end. -/
theorem navigation_mixed :
    let seen := fun n : Node => (n.name, n.start, n.stop)
    (mixedTree.top.view {}).map seen = [("A", 0, 2), ("B", 2, 3), ("C", 3, 4), ("C", 4, 6)] ∧
    Cursor.Goes (fun c => c.sibling .forward) (mixedTree.cursor {}).firstChild
      (mixedTree.top.view {}) ∧
    (∃ l, Cursor.Goes Cursor.next (mixedTree.cursor {}).next l ∧ l.map seen =
      [("A", 0, 2), ("B", 0, 1), ("B", 2, 3), ("C", 3, 4), ("C", 4, 6), ("A", 4, 6),
        ("B", 4, 5)]) ∧
    ∃ l, Cursor.Goes Cursor.prev (mixedTree.cursor {}).prev l ∧ l.map seen =
      [("C", 4, 6), ("A", 4, 6), ("B", 4, 5), ("C", 3, 4), ("B", 2, 3), ("A", 0, 2),
        ("B", 0, 1)] := by
  intro seen
  have hvalid : ∀ b ∈ mixedTree.buffers, b.Valid := fun b hb =>
    ⟨_, Buffer.WellFormed.spells ((by decide : ∀ b ∈ mixedTree.buffers, b.WellFormed) b hb) 0⟩
  have hall : ∀ {l : List Node} {shown : List (String × Nat × Nat)},
      (l.take 20).map seen = shown → shown.length < 20 → l.map seen = shown := by
    rintro l _ rfl hlt
    rw [List.length_map, List.length_take] at hlt
    rw [List.take_of_length_le (by omega)]
  obtain ⟨hmoves, ⟨next, -, -, -, hnext⟩, prev, -, -, -, hprev⟩ :=
    navigation hvalid (by decide) {}
  refine ⟨by decide +kernel, (hmoves _ (.refl _)).1, ⟨next, hnext, hall ?_ (by decide)⟩,
    prev, hprev, hall ?_ (by decide)⟩
  · rw [← Cursor.Goes.walkF_eq hnext]
    decide +kernel
  · rw [← Cursor.Goes.walkF_eq hprev]
    decide +kernel

end Tree

end IncrementalLR
