/-
**Where view nodes lie.**

The view children of a node of a well-formed tree lie inside of it, in order and without overlap,
whatever branches and buffers they come from.  So a search may leave out every branch and buffer
that does not lie on the wanted side itself: what it finds is the first view child on that side.

Main definitions:

* `Buffer.Ordered` — nodes in a buffer between two positions;
* `Node.Formed`, `Node.Row` — nodes of well-formed trees, and several of them between two positions;
* `Node.covers` — whether a node covers a position.

Main results:

* `Node.row_view` — **view children lie in order inside of their parent**;
* `Node.child_eq_find` — **a search finds the first view child on a side**;
* `Node.misses_eq` — the two tests for covering a position agree;
* `Node.eq_of_covers` — siblings that cover one position are the same node.
-/

import IncrementalLR.Proofs.Orders

set_option relaxedAutoImplicit false
set_option autoImplicit false

namespace IncrementalLR

/-! ### Nodes in a buffer -/

namespace Buffer

/-- The nodes in a buffer from index `i` to index `stop` lie between the positions `lo` and `hi`, in
order and inside each other. -/
inductive Ordered (b : Buffer) : Nat → Nat → Nat → Nat → Prop
  | nil {i lo hi : Nat} : lo ≤ hi → Ordered b i i lo hi
  | node {i stop lo hi : Nat} : lo ≤ b.slot (i + 1) →
      Ordered b (i + 4) (b.slot (i + 3)) (b.slot (i + 1)) (b.slot (i + 2)) →
      Ordered b (b.slot (i + 3)) stop (b.slot (i + 2)) hi → Ordered b i stop lo hi

theorem Ordered.le {b : Buffer} {i stop lo hi : Nat} (h : b.Ordered i stop lo hi) : lo ≤ hi := by
  induction h with
  | nil hle => exact hle
  | node hlo _ _ ihInner ih => omega

/-- Slots that list the nodes of a forest between two positions. -/
theorem Nests.ordered {i lo hi : Nat} {seg : List Nat} (h : Nests i lo hi seg) {b : Buffer}
    (before behind : List Nat) (hsplit : b.slots.toList = before ++ (seg ++ behind))
    (hindex : before.length = i) : b.Ordered i (i + seg.length) lo hi := by
  induction h generalizing before behind with
  | nil hle => exact .nil hle
  | @node i lo hi id start stop last inner outer hlo hlast _ _ ihInner ih =>
      subst hindex
      simp only [List.cons_append, List.append_assoc] at hsplit
      obtain ⟨-, hstart, hstop, hslot⟩ := slots_of_split hsplit
      have hinner := ihInner (before ++ [id, start, stop, last])
        (outer ++ behind) (by simpa using hsplit) (by simp)
      have houter := ih (before ++ [id, start, stop, last] ++ inner)
        behind (by simpa using hsplit) (by simp; omega)
      have hend : before.length + (id :: start :: stop :: last :: (inner ++ outer)).length =
          last + outer.length := by
        simp only [List.length_cons, List.length_append]
        omega
      rw [hend]
      rw [← hlast] at hinner
      subst hstart hstop hslot
      exact .node hlo hinner houter

theorem WellFormed.ordered {b : Buffer} (h : b.WellFormed) : b.Ordered 0 b.size 0 b.length := by
  have key := Nests.ordered h (b := b) [] [] (by simp) rfl
  rwa [Nat.zero_add, Array.length_toList] at key

end Buffer

/-! ### Nodes in a row -/

namespace Node

/-- A node of a well-formed tree. -/
def Formed : Node → Prop
  | branch n => n.tree.WellFormed
  | packed n => n.buffer.Ordered (n.index + 4) (n.slot 3) (n.slot 1) (n.slot 2)

/-- Nodes between two positions, in order and without overlap. -/
def Row : Nat → Nat → List Node → Prop
  | lo, hi, [] => lo ≤ hi
  | lo, hi, n :: ns => lo ≤ n.start ∧ n.Formed ∧ Row n.stop hi ns

theorem Formed.le {n : Node} (h : n.Formed) : n.start ≤ n.stop := by
  cases n with
  | branch n => exact Nat.le_add_right _ _
  | packed n => exact Nat.add_le_add_left (Buffer.Ordered.le h) _

namespace Row

variable {lo mid hi : Nat} {n : Node} {ns ns' : List Node}

theorem le (h : Row lo hi ns) : lo ≤ hi := by
  induction ns generalizing lo with
  | nil => exact h
  | cons n ns ih =>
      have := h.2.1.le
      have := ih h.2.2
      have := h.1
      omega

theorem mono_left (h : Row mid hi ns) (hle : lo ≤ mid) : Row lo hi ns := by
  cases ns with
  | nil => exact Nat.le_trans hle h
  | cons n ns => exact ⟨Nat.le_trans hle h.1, h.2⟩

theorem append (h : Row lo mid ns) (h' : Row mid hi ns') : Row lo hi (ns ++ ns') := by
  induction ns generalizing lo with
  | nil => exact h'.mono_left h
  | cons n ns ih => exact ⟨h.1, h.2.1, ih h.2.2⟩

theorem of_mem (h : Row lo hi ns) (hn : n ∈ ns) : lo ≤ n.start ∧ n.stop ≤ hi ∧ n.Formed := by
  induction ns generalizing lo with
  | nil => cases hn
  | cons m ns ih =>
      rcases List.mem_cons.1 hn with rfl | hn
      · exact ⟨h.1, h.2.2.le, h.2.1⟩
      · obtain ⟨hlo, hhi, hformed⟩ := ih h.2.2 hn
        have := h.1
        have := h.2.1.le
        exact ⟨by omega, hhi, hformed⟩

theorem pairwise (h : Row lo hi ns) : ns.Pairwise fun c d => c.stop ≤ d.start := by
  induction ns generalizing lo with
  | nil => exact .nil
  | cons n ns ih => exact .cons (fun d hd => (h.2.2.of_mem hd).1) (ih h.2.2)

end Row

end Node

/-- The nodes that stand beside each other in a buffer. -/
theorem Buffer.Ordered.row {b : Buffer} {i stop lo hi : Nat} (h : b.Ordered i stop lo hi) :
    ∃ l, b.Line i stop l ∧ ∀ n : PackedNode, n.buffer = b → ∀ outer,
      Node.Row (n.start + lo) (n.start + hi) (l.map (n.moveTo outer)) := by
  induction h with
  | nil hle => exact ⟨[], .nil, fun n _ _ => Nat.add_le_add_left hle n.start⟩
  | @node i stop lo hi hlo hinner _ ihInner ih =>
      obtain ⟨inner, hline, -⟩ := ihInner
      obtain ⟨l, hl, hrow⟩ := ih
      refine ⟨i :: l, .node hline hl, ?_⟩
      rintro n rfl outer
      exact ⟨Nat.add_le_add_left hlo _, hinner, hrow n rfl outer⟩

namespace BranchNode

mutual

/-- What is shown of a child lies where the child lies. -/
theorem row_viewAt (mode : Mode) (n : BranchNode) (k pos : Nat) : ∀ t : Tree, t.WellFormed →
    Node.Row (n.start + pos) (n.start + pos + t.length) (viewAt mode n k pos t)
  | .packed b, h => by
      obtain ⟨l, hline, hrow⟩ := (Buffer.WellFormed.ordered h).row
      rw [viewAt, hline.places_eq (Nat.le_refl _)]
      split
      · exact Nat.le_add_right _ _
      · rw [Nat.add_comm n.start]
        exact hrow ⟨n, b, k, pos + n.start, [], 0⟩ rfl []
  | .branch stamp ty cs len ps, h => by
      rw [viewAt, Nat.add_comm n.start]
      split
      · exact ⟨Nat.le_refl _, h, Nat.le_refl _⟩
      · exact row_viewAmong mode (n.enter k (pos + n.start) (.branch stamp ty cs len ps)) cs 0 0 len
          ⟨h.1, h.2⟩

theorem row_viewAmong (mode : Mode) (n : BranchNode) :
    ∀ (cs : List (Nat × Tree)) (k lo hi : Nat), Tree.Fits Buffer.WellFormed lo hi cs →
      Node.Row (n.start + lo) (n.start + hi) (viewAmong mode n k cs)
  | [], _, _, _, h => Nat.add_le_add_left h.inOrder _
  | (pos, t) :: rest, k, lo, hi, h => by
      obtain ⟨hlo, ht, hrest⟩ := h.of_cons
      have hfirst := row_viewAt mode n k pos t ht
      have hnext := row_viewAmong mode n rest (k + 1) (pos + t.length) hi hrest
      rw [← Nat.add_assoc] at hnext
      exact (hfirst.append hnext).mono_left (Nat.add_le_add_left hlo _)

end

end BranchNode

/-- **View children lie in order inside of their parent.** -/
theorem Node.row_view {mode : Mode} {n : Node} (h : n.Sound mode) (hformed : n.Formed) :
    Row n.start n.stop (n.view mode) := by
  cases n with
  | branch n =>
      obtain ⟨tree, start, above⟩ := n
      cases tree with
      | packed b => exact Nat.le_add_right _ _
      | branch stamp ty cs len ps =>
          exact BranchNode.row_viewAmong mode ⟨_, start, above⟩ cs 0 0 len ⟨hformed.1, hformed.2⟩
  | packed n =>
      obtain ⟨hmode, hsize, -⟩ := h
      obtain ⟨l, hline, hrow⟩ := Buffer.Ordered.row hformed
      rw [view, if_neg (by simp [hmode]), hline.places_eq hsize]
      exact hrow n rfl _

/-! ### Searching on a side -/

namespace Side

variable {side : Side} {pos lo start stop hi : Int}

/-- What lies around a node that is on a side is on it, too. -/
theorem holds_wider (h : side.holds pos start stop = true) (hlo : lo ≤ start) (hhi : stop ≤ hi) :
    side.holds pos lo hi = true := by
  cases side <;> simp only [holds, Bool.and_eq_true, decide_eq_true_eq] at h ⊢ <;> omega

theorem holds_shift (side : Side) (pos by' start stop : Int) :
    side.holds (pos - by') start stop = side.holds pos (by' + start) (by' + stop) := by
  rw [Bool.eq_iff_iff]
  cases side <;> simp only [holds, Bool.and_eq_true, decide_eq_true_eq] <;> omega

end Side

/-- Whether a node is what a search looks for. -/
def Query.fits (q : Query) (n : Node) : Bool := q.side.holds q.pos n.start n.stop

/-- Where a search finds nothing on its side there is nothing inside. -/
theorem Node.Row.find?_eq_none {lo hi : Nat} {ns : List Node} (h : Row lo hi ns) {q : Query}
    (hq : ¬ q.side.holds q.pos lo hi = true) : (q.dir.order ns).find? q.fits = none := by
  refine List.find?_eq_none.2 fun n hn hfits => hq ?_
  obtain ⟨hlo, hhi, -⟩ := h.of_mem (q.dir.mem_order.1 hn)
  exact Side.holds_wider hfits (Int.ofNat_le.2 hlo) (Int.ofNat_le.2 hhi)

/-- A search in a buffer. -/
theorem PackedNode.find_eq {n : PackedNode} {i stop : Nat} {l : List Nat}
    (h : n.buffer.Line i stop l) (hstop : stop ≤ n.buffer.size) (q : Query) (outer : List Nat) :
    (n.buffer.find q.dir q.side (q.pos - n.start) i stop).map (n.moveTo outer) =
      (q.dir.order (l.map (n.moveTo outer))).find? q.fits := by
  rw [h.find_eq hstop, Direction.order_map, List.find?_map]
  refine congrArg (fun p => ((q.dir.order l).find? p).map _) (funext fun j => ?_)
  exact Side.holds_shift _ _ _ _ _

namespace BranchNode

/-- A list before another one, in the order of a search. -/
theorem find?_order_append (q : Query) (ns ns' : List Node) :
    (q.dir.order (ns ++ ns')).find? q.fits =
      match q.dir with
      | .forward => ((q.dir.order ns).find? q.fits).or ((q.dir.order ns').find? q.fits)
      | .backward => ((q.dir.order ns').find? q.fits).or ((q.dir.order ns).find? q.fits) := by
  cases q.dir <;> simp [Direction.order, List.find?_append]

mutual

/-- What a search finds at a child. -/
theorem searchAt_eq_find (q : Query) (n : BranchNode) (k pos : Nat) : ∀ t : Tree, t.WellFormed →
    searchAt q n k pos t = (q.dir.order (viewAt q.mode n k pos t)).find? q.fits
  | .packed b, h => by
      have hrow := row_viewAt q.mode n k pos (.packed b) h
      obtain ⟨l, hline, -⟩ := (Buffer.WellFormed.ordered h).row
      rw [Nat.add_comm n.start] at hrow
      simp only [searchAt]
      by_cases hexclude : q.mode.excludeBuffers = true
      · simp [viewAt, hexclude]
      · by_cases hholds : q.side.holds q.pos (pos + n.start : Nat) (pos + n.start + b.length : Nat)
        · rw [viewAt, hline.places_eq (Nat.le_refl _), if_neg hexclude,
            if_pos (by rw [hholds]; simp [hexclude])]
          exact PackedNode.find_eq (n := ⟨n, b, k, pos + n.start, [], 0⟩) hline (Nat.le_refl _) q []
        · rw [hrow.find?_eq_none hholds, if_neg fun h => hholds (Bool.and_eq_true_iff.1 h).2]
  | .branch stamp ty cs len ps, h => by
      have hrow := row_viewAt q.mode n k pos (.branch stamp ty cs len ps) h
      rw [Nat.add_comm n.start] at hrow
      simp only [searchAt]
      by_cases hholds : q.side.holds q.pos (pos + n.start : Nat) (pos + n.start + len : Nat)
      · rw [viewAt, if_pos hholds]
        split
        · rw [Direction.order_singleton, List.find?_cons_of_pos]
          exact hholds
        · exact searchAmong_eq_find q _ cs 0 h.2
      · rw [hrow.find?_eq_none hholds, if_neg hholds]

theorem searchAmong_eq_find (q : Query) (n : BranchNode) :
    ∀ (cs : List (Nat × Tree)) (k : Nat), Tree.FormedAll Buffer.WellFormed cs →
      searchAmong q n k cs = (q.dir.order (viewAmong q.mode n k cs)).find? q.fits
  | [], _, _ => by rw [searchAmong, viewAmong, Direction.order_nil, List.find?_nil]
  | (pos, t) :: rest, k, h => by
      rw [searchAmong, viewAmong, find?_order_append, searchAt_eq_find q n k pos t h.1,
        searchAmong_eq_find q n rest (k + 1) h.2]
      cases q.dir with
      | forward => cases (Direction.order _ (viewAt q.mode n k pos t)).find? q.fits <;> rfl
      | backward =>
          cases (Direction.order _ (viewAmong q.mode n (k + 1) rest)).find? q.fits <;> rfl

end

end BranchNode

/-- **A search finds the first view child on a side**, in its direction. -/
theorem Node.child_eq_find {n : Node} {q : Query} (h : n.Sound q.mode) (hformed : n.Formed) :
    n.child q = (q.dir.order (n.view q.mode)).find? q.fits := by
  cases n with
  | branch n =>
      have hcs : n.tree.children = [] ++ (n.tree.children ++ []) := by simp
      have hsplit := BranchNode.search_split q hcs
      have hchild : n.child q = n.search q (q.dir.near 0 n.tree.children.length) := by
        rw [BranchNode.child]
        cases q.dir with
        | forward => rfl
        | backward => rw [Direction.near, Nat.zero_add]
      rw [List.length_nil, BranchNode.search_far, BranchNode.onward, if_pos h.2, Option.or_none]
        at hsplit
      rw [child, hchild, hsplit, view]
      refine BranchNode.searchAmong_eq_find q n _ 0 ?_
      obtain ⟨tree, start, above⟩ := n
      cases tree with
      | packed b => trivial
      | branch stamp ty cs len ps => exact hformed.2
  | packed n =>
      obtain ⟨hmode, hsize, l, hline⟩ := h
      rw [child, PackedNode.child, view, if_neg (by simp [hmode]), if_neg (by simp [hmode]),
        hline.places_eq hsize]
      exact n.find_eq hline hsize q _

/-! ### Covering a position -/

namespace Side

/-- The side for each bias. -/
theorem ofBias_cases (bias : Int) : (bias < 0 ∧ ofBias bias = atOrBefore) ∨
    (bias = 0 ∧ ofBias bias = around) ∨ (0 < bias ∧ ofBias bias = atOrAfter) := by
  unfold ofBias
  split
  · exact Or.inl ⟨‹_›, rfl⟩
  · split
    · exact Or.inr (Or.inl ⟨‹_›, rfl⟩)
    · exact Or.inr (Or.inr ⟨by omega, rfl⟩)

/-- No position is covered on both sides of another one. -/
theorem holds_ofBias_apart {bias pos start stop start' stop' : Int} (hle : stop ≤ start')
    (h : (ofBias bias).holds pos start stop = true) :
    (ofBias bias).holds pos start' stop' = false := by
  rw [Bool.eq_false_iff]
  intro h'
  obtain ⟨-, hside⟩ | ⟨-, hside⟩ | ⟨-, hside⟩ := ofBias_cases bias <;> rw [hside] at h h' <;>
    simp only [holds, Bool.and_eq_true, decide_eq_true_eq] at h h' <;> omega

end Side

namespace Node

/-- Whether a node covers a position, on the side that a bias stands for. -/
def covers (pos : Nat) (bias : Int) (n : Node) : Bool :=
  (Side.ofBias bias).holds pos n.start n.stop

variable {pos : Nat} {bias : Int} {mode : Mode} {n c d : Node} {ns : List Node}

/-- The test for going up is the one for going down; an empty node passes neither. -/
theorem misses_eq : n.misses pos bias = !n.covers pos bias := by
  rw [covers, misses, Bool.eq_iff_iff]
  obtain ⟨hbias, hside⟩ | ⟨hbias, hside⟩ | ⟨hbias, hside⟩ := Side.ofBias_cases bias
  · rw [hside, if_pos (by omega), if_neg (by omega)]
    simp only [Side.holds, Bool.not_eq_true', Bool.or_eq_true, Bool.and_eq_false_iff,
      decide_eq_true_eq, decide_eq_false_iff_not]
    omega
  · rw [hside, if_pos (by omega), if_pos (by omega)]
    simp only [Side.holds, Bool.not_eq_true', Bool.or_eq_true, Bool.and_eq_false_iff,
      decide_eq_true_eq, decide_eq_false_iff_not]
    omega
  · rw [hside, if_neg (by omega), if_pos (by omega)]
    simp only [Side.holds, Bool.not_eq_true', Bool.or_eq_true, Bool.and_eq_false_iff,
      decide_eq_true_eq, decide_eq_false_iff_not]
    omega

/-- Positions that are negative as signed numbers lie behind every node. -/
theorem fits_covering (hpos : pos ≤ maxPos) (hword : n.stop ≤ maxWord) :
    (covering pos bias mode).fits n = n.covers pos bias := by
  rw [covers, Query.fits, covering]
  dsimp only
  by_cases h : pos < 9223372036854775808
  · rw [signedPos_of_lt h]
  · have hsigned : signedPos pos < 0 := by
      rw [signedPos, if_neg (by omega)]
      rw [maxPos] at hpos
      omega
    rw [maxWord] at hword
    rw [Bool.eq_iff_iff]
    obtain ⟨-, hside⟩ | ⟨-, hside⟩ | ⟨-, hside⟩ := Side.ofBias_cases bias <;> rw [hside] <;>
      simp only [Side.holds, Bool.and_eq_true, decide_eq_true_eq] <;> omega

theorem covers_wider (h : c.covers pos bias = true) (hstart : n.start ≤ c.start)
    (hstop : c.stop ≤ n.stop) : n.covers pos bias = true :=
  Side.holds_wider h (Int.ofNat_le.2 hstart) (Int.ofNat_le.2 hstop)

/-- **Siblings that cover one position** are the same node. -/
theorem eq_of_covers (h : ns.Pairwise fun c d => c.stop ≤ d.start) (hc : c ∈ ns) (hd : d ∈ ns)
    (hcovers : c.covers pos bias = true) (hcovers' : d.covers pos bias = true) : c = d := by
  have key : ns.Pairwise fun c d => ¬ (c.covers pos bias = true ∧ d.covers pos bias = true) := by
    refine h.imp ?_
    rintro c d hle ⟨hcovers, hcovers'⟩
    exact Bool.eq_false_iff.1 (Side.holds_ofBias_apart (Int.ofNat_le.2 hle) hcovers) hcovers'
  clear h
  induction key with
  | nil => cases hc
  | cons hhead _ ih =>
      rcases List.mem_cons.1 hc with rfl | hin
      · rcases List.mem_cons.1 hd with rfl | hin'
        · rfl
        · exact absurd ⟨hcovers, hcovers'⟩ (hhead d hin')
      · rcases List.mem_cons.1 hd with rfl | hin'
        · exact absurd ⟨hcovers', hcovers⟩ (hhead c hin)
        · exact ih hin hin'

end Node

end IncrementalLR
