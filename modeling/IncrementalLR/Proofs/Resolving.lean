/-
**Looking up positions.**

A look-up climbs from some node until a node covers the position, and goes down from there as long
as a view child covers it.  In a well-formed tree the nodes that cover a position lie inside each
other, so from wherever the climb began the look-up ends at the innermost one.  If the root does not
cover the position no node does, and the look-up ends at the root.

Main definitions:

* `Tree.Visits` — the view nodes of a tree;
* `Tree.Lands` — the view node at a position;
* `NodeMemo.after` — what is remembered after some look-ups.

Main results:

* `Tree.Visits.comparable` — view nodes that cover one position lie inside each other;
* `Tree.Visits.climbF`, `Tree.Visits.descendF` — what the two loops of a look-up reach;
* `Tree.Visits.moveTo_eq` — **a cursor ends where a look-up ends**;
* `Tree.lookups_land` — **all look-ups from view nodes end at the innermost one**.
-/

import IncrementalLR.Proofs.Positions

set_option relaxedAutoImplicit false
set_option autoImplicit false

namespace IncrementalLR

/-! ### View nodes of a tree -/

namespace Node.Reaches

variable {mode : Mode} {n m x : Node}

theorem trans (h : Reaches mode n m) (h' : Reaches mode m x) : Reaches mode n x := by
  induction h with
  | refl => exact h'
  | step hc _ ih => exact .step hc (ih h')

/-- A view node is the node itself or a view child of another one. -/
theorem eq_or_mem (h : Reaches mode n x) : x = n ∨ ∃ p, Reaches mode n p ∧ x ∈ p.view mode := by
  induction h with
  | refl => exact Or.inl rfl
  | @step n c x hc _ ih =>
      rcases ih with rfl | ⟨p, hp, hx⟩
      · exact Or.inr ⟨n, .refl n, hc⟩
      · exact Or.inr ⟨p, .step hc hp, hx⟩

/-- The nodes below a node hold less than it. -/
theorem eq_or_extent_lt (h : Reaches mode n x) (hn : n.Sound mode) :
    x = n ∨ x.extent < n.extent := by
  induction h with
  | refl => exact Or.inl rfl
  | step hc _ ih =>
      have hlt := extent_lt_of_mem_view hn hc
      rcases ih (hn.of_mem_view hc) with rfl | hlt'
      · exact Or.inr hlt
      · exact Or.inr (Nat.lt_trans hlt' hlt)

theorem antisymm (h : Reaches mode n x) (h' : Reaches mode x n) (hn : n.Sound mode) : x = n := by
  rcases h.eq_or_extent_lt hn with heq | hlt
  · exact heq
  · rcases h'.eq_or_extent_lt (h.sound hn) with heq | hlt'
    · exact heq.symm
    · omega

end Node.Reaches

namespace Tree

/-- A view node of a tree, and what is known of it if the tree is well formed. -/
structure Visits (t : Tree) (mode : Mode) (n : Node) : Prop where
  reaches : t.top.Reaches mode n
  sound : n.Sound mode
  formed : n.Formed
  stop_le : n.stop ≤ t.length
  root : n.rootTree = t
  extent_le : n.extent ≤ t.weight

mutual

/-- Each buffer of a tree has the property that all its buffers have. -/
theorem Formed.of_mem_buffers {P : Buffer → Prop} : ∀ {t : Tree}, t.Formed P →
    ∀ b ∈ t.buffers, P b
  | branch _ _ _ _ _, h, b, hb => FormedAll.of_mem_buffers h.2 b hb
  | packed _, h, b, hb => by
      obtain rfl := List.mem_singleton.1 hb
      exact h

theorem FormedAll.of_mem_buffers {P : Buffer → Prop} : ∀ {cs : List (Nat × Tree)},
    FormedAll P cs → ∀ b ∈ buffersAll cs, P b
  | [], _, _, hb => by cases hb
  | (_, t) :: rest, h, b, hb => by
      rcases List.mem_append.1 hb with hb | hb
      · exact Formed.of_mem_buffers h.1 b hb
      · exact FormedAll.of_mem_buffers h.2 b hb

end

namespace Visits

variable {t : Tree} {mode : Mode} {n m c x : Node} {pos : Nat} {bias : Int}

/-- The root, if navigation stops at it. -/
theorem of_sound (h : t.WellFormed) (hsound : t.top.Sound mode) : t.Visits mode t.top where
  reaches := .refl _
  sound := hsound
  formed := h
  stop_le := Nat.le_of_eq (Nat.zero_add _)
  root := rfl
  extent_le := Nat.le_refl _

theorem valid_buffers (h : t.WellFormed) : ∀ b ∈ t.buffers, b.Valid := fun b hb =>
  ⟨_, (Formed.of_mem_buffers h b hb).spells 0⟩

theorem top (h : t.WellFormed) (hnamed : t.isAnonymous = false) (mode : Mode) :
    t.Visits mode t.top :=
  of_sound h (top_sound (valid_buffers h) hnamed mode)

/-- View children lie inside. -/
theorem bounds (h : t.Visits mode n) (hc : c ∈ n.view mode) :
    n.start ≤ c.start ∧ c.stop ≤ n.stop :=
  let key := (Node.row_view h.sound h.formed).of_mem hc
  ⟨key.1, key.2.1⟩

theorem of_mem_view (h : t.Visits mode n) (hc : c ∈ n.view mode) : t.Visits mode c where
  reaches := h.reaches.trans (.step hc (.refl c))
  sound := h.sound.of_mem_view hc
  formed := ((Node.row_view h.sound h.formed).of_mem hc).2.2
  stop_le := Nat.le_trans (h.bounds hc).2 h.stop_le
  root := by rw [Node.rootTree_of_mem_view h.sound hc, h.root]
  extent_le := Nat.le_trans (Nat.le_of_lt (Node.extent_lt_of_mem_view h.sound hc)) h.extent_le

theorem of_reaches (h : t.Visits mode n) (hx : n.Reaches mode x) : t.Visits mode x := by
  induction hx with
  | refl => exact h
  | step hc _ ih => exact ih (h.of_mem_view hc)

/-- What covers a position is covered by everything around it. -/
theorem covers_of_reaches (h : t.Visits mode n) (hx : n.Reaches mode x)
    (hcovers : x.covers pos bias = true) : n.covers pos bias = true := by
  induction hx with
  | refl => exact hcovers
  | step hc _ ih =>
      have hbounds := h.bounds hc
      exact Node.covers_wider (ih (h.of_mem_view hc) hcovers) hbounds.1 hbounds.2

/-- **View nodes that cover one position** lie inside each other. -/
theorem comparable (h : t.Visits mode n) (hm : n.Reaches mode m) (hx : n.Reaches mode x)
    (hcm : m.covers pos bias = true) (hcx : x.covers pos bias = true) :
    m.Reaches mode x ∨ x.Reaches mode m := by
  induction hm with
  | refl => exact Or.inl hx
  | @step n c m hc hm ih =>
      cases hx with
      | refl => exact Or.inr (.step hc hm)
      | step hd hx =>
          -- both lie in the one view child that covers the position
          have heq := Node.eq_of_covers (Node.row_view h.sound h.formed).pairwise hc hd
            ((h.of_mem_view hc).covers_of_reaches hm hcm)
            ((h.of_mem_view hd).covers_of_reaches hx hcx)
          subst heq
          exact ih (h.of_mem_view hc) hx hcm

/-- A node that covers a position lies inside of all that do, if none of its view children does. -/
theorem reaches_of_last (htop : t.Visits mode t.top) (hx : t.Visits mode x) (hm : t.Visits mode m)
    (hcx : x.covers pos bias = true) (hcm : m.covers pos bias = true)
    (hlast : ∀ c ∈ m.view mode, c.covers pos bias = false) : x.Reaches mode m := by
  rcases htop.comparable hx.reaches hm.reaches hcx hcm with hle | hle
  · exact hle
  · cases hle with
    | refl => exact .refl m
    | @step _ c _ hc hx' =>
        have hcc := (hm.of_mem_view hc).covers_of_reaches hx' hcx
        rw [hlast c hc] at hcc
        cases hcc

/-! ### The two loops of a look-up -/

/-- Going up from a view node ends at one that covers the position, or at the root. -/
theorem climbF (htop : t.Visits {} t.top) (h : t.Visits {} n) (pos : Nat) (bias : Int)
    {fuel : Nat} (hfuel : n.depth < fuel) :
    let r := Node.climbF pos bias fuel n
    t.Visits {} r.1 ∧ r.1.covers pos bias = r.2 ∧ (r.2 = false → r.1 = t.top) := by
  induction fuel generalizing n with
  | zero => omega
  | succ fuel ih =>
      rw [Node.climbF, Node.misses_eq]
      cases hcovers : n.covers pos bias with
      | false =>
          rcases h.reaches.eq_or_mem with rfl | ⟨p, hp, hn⟩
          · exact ⟨h, hcovers, fun _ => rfl⟩
          · have hparent := Node.parentIn_of_mem_view (htop.of_reaches hp).sound hn
            have := Node.depth_lt_of_parentIn hparent
            rw [show n.parent? = some p from hparent]
            exact ih (htop.of_reaches hp) (by omega)
      | true => exact ⟨h, hcovers, fun hfalse => by cases hfalse⟩

/-- A search takes a view child. -/
theorem mem_view_of_child {q : Query} (h : t.Visits q.mode n) (hc : n.child q = some c) :
    c ∈ n.view q.mode := by
  rw [Node.child_eq_find h.sound h.formed] at hc
  exact q.dir.mem_order.1 (List.mem_of_find?_eq_some hc)

/-- Going down ends at a view node. -/
theorem descendF_reaches {q : Query} (h : t.Visits q.mode n) (fuel : Nat) :
    n.Reaches q.mode (n.descendF q fuel) := by
  induction fuel generalizing n with
  | zero => exact .refl n
  | succ fuel ih =>
      rw [Node.descendF]
      cases hchild : n.child q with
      | none => exact .refl n
      | some c =>
          have hc := h.mem_view_of_child hchild
          exact .step hc (ih (h.of_mem_view hc))

/-- A look-up goes on to a view child that covers the position, if there is one. -/
theorem child_covering (h : t.Visits mode n) (bias : Int) (hword : t.length ≤ maxWord)
    (hpos : pos ≤ maxPos) :
    match n.child (Node.covering pos bias mode) with
    | some c => c ∈ n.view mode ∧ c.covers pos bias = true
    | none => ∀ c ∈ n.view mode, c.covers pos bias = false := by
  have hfits : ∀ c ∈ n.view mode, (Node.covering pos bias mode).fits c = c.covers pos bias :=
    fun c hc => Node.fits_covering hpos (Nat.le_trans (h.of_mem_view hc).stop_le hword)
  have hfind := Node.child_eq_find (q := Node.covering pos bias mode) h.sound h.formed
  cases hchild : n.child (Node.covering pos bias mode) with
  | some c =>
      have hc : c ∈ n.view mode := h.mem_view_of_child (q := Node.covering pos bias mode) hchild
      rw [hchild] at hfind
      exact ⟨hc, hfits c hc ▸ List.find?_some hfind.symm⟩
  | none =>
      rw [hchild] at hfind
      intro c hc
      rw [← hfits c hc]
      exact Bool.eq_false_iff.2 (List.find?_eq_none.1 hfind.symm c hc)

/-- Going down from a node that covers the position ends at one none of whose view children does. -/
theorem descendF (h : t.Visits mode n) (hword : t.length ≤ maxWord) (hpos : pos ≤ maxPos)
    (hcovers : n.covers pos bias = true) {fuel : Nat} (hfuel : n.extent ≤ fuel) :
    let r := n.descendF (Node.covering pos bias mode) fuel
    r.covers pos bias = true ∧ ∀ c ∈ r.view mode, c.covers pos bias = false := by
  induction fuel generalizing n with
  | zero =>
      refine ⟨hcovers, fun c hc => ?_⟩
      have := Node.extent_lt_of_mem_view h.sound hc
      omega
  | succ fuel ih =>
      have key := h.child_covering bias hword hpos
      rw [Node.descendF]
      cases hchild : n.child (Node.covering pos bias mode) with
      | none =>
          rw [hchild] at key
          exact ⟨hcovers, key⟩
      | some c =>
          rw [hchild] at key
          have := Node.extent_lt_of_mem_view h.sound key.1
          exact ih (h.of_mem_view key.1) key.2 (by omega)

/-- From a node that does not cover the position nothing goes down. -/
theorem descendF_of_not_covers (h : t.Visits mode n) (hword : t.length ≤ maxWord)
    (hpos : pos ≤ maxPos) (hcovers : n.covers pos bias = false) (fuel : Nat) :
    n.descendF (Node.covering pos bias mode) fuel = n := by
  cases fuel with
  | zero => rfl
  | succ fuel =>
      have key := h.child_covering bias hword hpos
      rw [Node.descendF]
      cases hchild : n.child (Node.covering pos bias mode) with
      | none => rfl
      | some c =>
          rw [hchild] at key
          rw [h.covers_of_reaches (.step key.1 (.refl c)) key.2] at hcovers
          cases hcovers

end Visits

/-! ### Look-ups among view nodes -/

/-- The view node that look-ups at a position end at: the root if it does not cover the position,
else the one inside of all that do. -/
structure Lands (t : Tree) (pos : Nat) (bias : Int) (m : Node) : Prop where
  visited : t.Visits {} m
  outside : t.top.covers pos bias = false → m = t.top
  covers : t.top.covers pos bias = true → m.covers pos bias = true
  innermost : ∀ n, t.Visits {} n → n.covers pos bias = true → n.Reaches {} m

variable {t : Tree} {n m : Node} {pos : Nat} {bias : Int}

theorem Lands.unique {m' : Node} (h : t.Lands pos bias m) (h' : t.Lands pos bias m') : m = m' := by
  cases htop : t.top.covers pos bias with
  | false => rw [h.outside htop, h'.outside htop]
  | true =>
      exact (h'.innermost m h.visited (h.covers htop)).antisymm
        (h.innermost m' h'.visited (h'.covers htop)) h.visited.sound |>.symm

/-- Every look-up ends at a view node. -/
theorem Visits.resolve (htop : t.Visits {} t.top) (h : t.Visits {} n) (pos : Nat) (bias : Int) :
    t.Visits {} (n.resolve pos bias) := by
  have key := htop.climbF h pos bias (Nat.lt_succ_self _)
  rw [Node.resolve]
  generalize Node.climbF pos bias (n.depth + 1) n = r at key
  obtain ⟨m, ok⟩ := r
  cases ok with
  | false => exact key.1
  | true => exact key.1.of_reaches (key.1.descendF_reaches (q := Node.covering pos bias {}) _)

/-- **A look-up from any view node.** -/
theorem Visits.lands (htop : t.Visits {} t.top) (h : t.Visits {} n) (hword : t.length ≤ maxWord)
    (hpos : pos ≤ maxPos) (bias : Int) : t.Lands pos bias (n.resolve pos bias) := by
  have hvisits := htop.resolve h pos bias
  obtain ⟨hm, hcovers, hroot⟩ := htop.climbF h pos bias (Nat.lt_succ_self _)
  rw [Node.resolve] at hvisits ⊢
  generalize Node.climbF pos bias (n.depth + 1) n = r at *
  obtain ⟨m, ok⟩ := r
  cases ok with
  | false =>
      obtain rfl : m = t.top := hroot rfl
      refine ⟨hvisits, fun _ => rfl, fun h => h, fun x hx hcx => ?_⟩
      rw [htop.covers_of_reaches hx.reaches hcx] at hcovers
      cases hcovers
  | true =>
      have htopCovers := htop.covers_of_reaches hm.reaches hcovers
      have hfuel : m.extent ≤ n.rootTree.weight := by
        rw [h.root]
        exact hm.extent_le
      obtain ⟨hlast, hbelow⟩ := hm.descendF hword hpos hcovers hfuel
      refine ⟨hvisits, fun hfalse => ?_, fun _ => hlast, fun x hx hcx => ?_⟩
      · rw [htopCovers] at hfalse
        cases hfalse
      · exact htop.reaches_of_last hx hvisits hcx hlast hbelow

/-- A cursor climbs like a look-up. -/
theorem climbF_cursor (pos : Nat) (bias : Int) (fuel : Nat) (n : Node) :
    Cursor.climbF pos bias fuel ⟨n, {}⟩ = ⟨(Node.climbF pos bias fuel n).1, {}⟩ := by
  induction fuel generalizing n with
  | zero => rfl
  | succ fuel ih =>
      rw [Cursor.climbF, Node.climbF, Node.parent?]
      dsimp only
      split
      · cases n.parentIn false with
        | none => rfl
        | some p => exact ih p
      · rfl

/-- **A cursor ends where a look-up ends.**  Where no node covers the position it tries to go down
from the root, and finds nothing. -/
theorem Visits.moveTo_eq (htop : t.Visits {} t.top) (h : t.Visits {} n) (hword : t.length ≤ maxWord)
    (hpos : pos ≤ maxPos) (bias : Int) :
    ((Cursor.mk n {}).moveTo pos bias).node = n.resolve pos bias := by
  obtain ⟨hm, hcovers, -⟩ := htop.climbF h pos bias (Nat.lt_succ_self _)
  rw [Cursor.moveTo, Node.resolve]
  dsimp only
  rw [climbF_cursor]
  dsimp only
  generalize Node.climbF pos bias (n.depth + 1) n = r at *
  obtain ⟨m, ok⟩ := r
  cases ok with
  | false => exact hm.descendF_of_not_covers hword hpos hcovers _
  | true => rfl

end Tree

/-! ### Remembered nodes -/

/-- What is remembered after some look-ups in a tree. -/
def NodeMemo.after (t : Tree) (history : List (Nat × Int)) : NodeMemo :=
  history.foldl (fun c q => (c.resolve t q.1 q.2).2) {}

/-- What is remembered is a view node. -/
def NodeMemo.Remembers (t : Tree) (c : NodeMemo) : Prop := ∀ p ∈ c.last, t.Visits {} p.2

namespace NodeMemo

variable {t : Tree} {c : NodeMemo}

/-- A look-up begins at the remembered node or at the root. -/
theorem exists_resolve (htop : t.Visits {} t.top) (h : c.Remembers t) (pos : Nat) (bias : Int) :
    ∃ n, t.Visits {} n ∧
      c.resolve t pos bias = (n.resolve pos bias, ⟨some (t, n.resolve pos bias)⟩) := by
  obtain ⟨last⟩ := c
  cases last with
  | none => exact ⟨t.top, htop, rfl⟩
  | some p =>
      rw [resolve]
      dsimp only
      split
      · exact ⟨p.2, h p rfl, rfl⟩
      · exact ⟨t.top, htop, rfl⟩

theorem remembers_after (htop : t.Visits {} t.top) (history : List (Nat × Int)) :
    (after t history).Remembers t := by
  have key : ∀ c : NodeMemo, c.Remembers t →
      (history.foldl (fun c q => (c.resolve t q.1 q.2).2) c).Remembers t := by
    induction history with
    | nil => exact fun c h => h
    | cons q history ih =>
        intro c h
        obtain ⟨n, hn, heq⟩ := exists_resolve htop h q.1 q.2
        rw [List.foldl_cons]
        refine ih _ ?_
        rw [heq]
        rintro p hp
        obtain rfl := Option.some.inj hp
        exact htop.resolve hn q.1 q.2
  exact key {} fun p hp => by cases hp

end NodeMemo

/-- **All look-ups end at the innermost view node**: those from the root, from the node remembered
after any look-ups in the tree and from any view node, and those of a cursor at any view node. -/
theorem Tree.lookups_land {t : Tree} {pos : Nat} (htop : t.Visits {} t.top)
    (hword : t.length ≤ maxWord) (hpos : pos ≤ maxPos) (bias : Int) :
    t.Lands pos bias (t.resolve pos bias) ∧
    (∀ history : List (Nat × Int),
      ((NodeMemo.after t history).resolve t pos bias).1 = t.resolve pos bias) ∧
    ∀ n, t.Visits {} n →
      n.resolve pos bias = t.resolve pos bias ∧
      ((Cursor.mk n {}).moveTo pos bias).node = t.resolve pos bias := by
  have hlands : ∀ n, t.Visits {} n → t.Lands pos bias (n.resolve pos bias) := fun n hn =>
    htop.lands hn hword hpos bias
  have hsame : ∀ n, t.Visits {} n → n.resolve pos bias = t.resolve pos bias := fun n hn =>
    (hlands n hn).unique (hlands t.top htop)
  refine ⟨hlands t.top htop, fun history => ?_, fun n hn => ?_⟩
  · obtain ⟨n, hn, heq⟩ := NodeMemo.exists_resolve htop
      (NodeMemo.remembers_after htop history) pos bias
    rw [heq]
    exact hsame n hn
  · exact ⟨hsame n hn, (htop.moveTo_eq hn hword hpos bias).trans (hsame n hn)⟩

end IncrementalLR
