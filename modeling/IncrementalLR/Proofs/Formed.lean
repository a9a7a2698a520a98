/-
**Well-formed trees.**

A stored tree is well formed if every node lies inside its parent and neighbours follow each other
in the order of the document.  For branches this is a statement about the positions of the children;
for packed nodes it is one about the slots of the buffer, which list the nodes in pre-order, each
with the index after its last descendant.

Both parts can be computed, so that a tree at hand can be checked.

Main definitions:

* `Buffer.Nests`, `Buffer.WellFormed` — packed nodes that lie inside each other in order;
* `Tree.InOrder`, `Tree.Fits` — children between two positions;
* `Tree.Formed`, `Tree.WellFormed` — the same for trees.

Main results:

* `Buffer.Nests.append`, `Tree.Fits.append`, `Tree.Fits.move` — pieces side by side, and moved;
* `Tree.Formed.of_buffers` — what is known of the buffers may be used afterwards;
* `Tree.formed_stampAll` — stamps do not matter.
-/

import IncrementalLR.Tree.Identity

set_option relaxedAutoImplicit false
set_option autoImplicit false

namespace IncrementalLR

namespace Buffer

/-! ### Packed nodes -/

/-- Slots, the first of which has index `i`, that list the nodes of a forest between two
positions. -/
inductive Nests : Nat → Nat → Nat → List Nat → Prop
  | nil {i lo hi : Nat} : lo ≤ hi → Nests i lo hi []
  | node {i lo hi id start stop last : Nat} {inner outer : List Nat} : lo ≤ start →
      last = i + 4 + inner.length → Nests (i + 4) start stop inner → Nests last stop hi outer →
      Nests i lo hi (id :: start :: stop :: last :: (inner ++ outer))

/-- The packed nodes lie inside the buffer and inside each other. -/
def WellFormed (b : Buffer) : Prop := Nests 0 0 b.length b.slots.toList

namespace Nests

variable {i lo mid hi : Nat} {l l' : List Nat}

theorem le (h : Nests i lo hi l) : lo ≤ hi := by
  induction h with
  | nil hle => exact hle
  | node hlo _ _ _ ihinner ihouter => omega

theorem mono {hi' : Nat} (h : Nests i lo hi l) (hhi : hi ≤ hi') : Nests i lo hi' l := by
  induction h with
  | nil hle => exact .nil (Nat.le_trans hle hhi)
  | node hlo hlast hinner _ _ ihouter => exact .node hlo hlast hinner (ihouter hhi)

theorem mono_left {lo' : Nat} (h : Nests i lo hi l) (hlo : lo' ≤ lo) : Nests i lo' hi l := by
  cases h with
  | nil hle => exact .nil (Nat.le_trans hlo hle)
  | node hle hlast hinner houter => exact .node (Nat.le_trans hlo hle) hlast hinner houter

/-- A forest before another one. -/
theorem append (h : Nests i lo mid l) (h' : Nests (i + l.length) mid hi l') :
    Nests i lo hi (l ++ l') := by
  induction h with
  | nil hle => exact h'.mono_left hle
  | @node i lo mid id start stop last inner outer hlo hlast hinner _ _ ihouter =>
      have hindex : i + (id :: start :: stop :: last :: (inner ++ outer)).length =
          last + outer.length := by
        simp only [List.length_cons, List.length_append]
        omega
      rw [hindex] at h'
      simp only [List.cons_append, List.append_assoc]
      exact .node hlo hlast hinner (ihouter h')

end Nests

/-- Whether slots list the nodes of a forest; `fuel` bounds their number. -/
def nestsF : Nat → Nat → Nat → Nat → List Nat → Bool
  | _, _, lo, hi, [] => decide (lo ≤ hi)
  | fuel + 1, i, lo, hi, _ :: start :: stop :: last :: rest =>
      decide (lo ≤ start) && decide (i + 4 ≤ last) && decide (last ≤ i + 4 + rest.length) &&
        nestsF fuel (i + 4) start stop (rest.take (last - (i + 4))) &&
        nestsF fuel last stop hi (rest.drop (last - (i + 4)))
  | _, _, _, _, _ => false

theorem nests_of_nestsF (fuel : Nat) {i lo hi : Nat} {l : List Nat}
    (h : nestsF fuel i lo hi l = true) : Nests i lo hi l := by
  induction fuel generalizing i lo hi l with
  | zero =>
      cases l with
      | nil => exact .nil (of_decide_eq_true h)
      | cons _ _ => simp [nestsF] at h
  | succ fuel ih =>
      match l, h with
      | [], h => exact .nil (of_decide_eq_true h)
      | id :: start :: stop :: last :: rest, h =>
          simp only [nestsF, Bool.and_eq_true, decide_eq_true_eq] at h
          obtain ⟨⟨⟨⟨hlo, hfirst⟩, hlast⟩, hinner⟩, houter⟩ := h
          rw [← List.take_append_drop (last - (i + 4)) rest]
          refine .node hlo ?_ (ih hinner) (ih houter)
          rw [List.length_take]
          omega

theorem nestsF_of_nests (fuel : Nat) {i lo hi : Nat} {l : List Nat} (h : Nests i lo hi l)
    (hfuel : l.length ≤ fuel) : nestsF fuel i lo hi l = true := by
  induction h generalizing fuel with
  | nil hle =>
      cases fuel with
      | zero => exact decide_eq_true hle
      | succ fuel => exact decide_eq_true hle
  | @node i lo hi id start stop last inner outer hlo hlast _ _ ihinner ihouter =>
      cases fuel with
      | zero => simp at hfuel
      | succ fuel =>
          simp only [List.length_cons, List.length_append] at hfuel
          have hcount : last - (i + 4) = inner.length := by omega
          simp only [nestsF, Bool.and_eq_true, decide_eq_true_eq, hcount, List.take_left,
            List.drop_left, List.length_append]
          refine ⟨⟨⟨⟨hlo, by omega⟩, by omega⟩, ihinner fuel (by omega)⟩, ihouter fuel (by omega)⟩

instance (b : Buffer) : Decidable b.WellFormed :=
  decidable_of_iff (nestsF b.slots.toList.length 0 0 b.length b.slots.toList = true)
    ⟨nests_of_nestsF _, fun h => nestsF_of_nests _ h (Nat.le_refl _)⟩

end Buffer

namespace Tree

/-! ### Children -/

/-- Children between two positions, in order and without overlap. -/
def InOrder : Nat → Nat → List (Nat × Tree) → Prop
  | lo, hi, [] => lo ≤ hi
  | lo, hi, c :: rest => lo ≤ c.1 ∧ InOrder (c.1 + c.2.length) hi rest

mutual

/-- All branches have their children inside and in order, and all buffers satisfy `P`. -/
def Formed (P : Buffer → Prop) : Tree → Prop
  | branch _ _ cs n _ => InOrder 0 n cs ∧ FormedAll P cs
  | packed b => P b

/-- The same for all children. -/
def FormedAll (P : Buffer → Prop) : List (Nat × Tree) → Prop
  | [] => True
  | (_, t) :: rest => Formed P t ∧ FormedAll P rest

end

/-- **Every node lies inside its parent, and neighbours follow each other.** -/
def WellFormed (t : Tree) : Prop := t.Formed Buffer.WellFormed

/-- Formed children between two positions. -/
structure Fits (P : Buffer → Prop) (lo hi : Nat) (cs : List (Nat × Tree)) : Prop where
  inOrder : InOrder lo hi cs
  formed : FormedAll P cs

instance decidableInOrder : (lo hi : Nat) → (cs : List (Nat × Tree)) → Decidable (InOrder lo hi cs)
  | lo, hi, [] => inferInstanceAs (Decidable (lo ≤ hi))
  | lo, hi, c :: rest =>
      have := decidableInOrder (c.1 + c.2.length) hi rest
      inferInstanceAs (Decidable (lo ≤ c.1 ∧ InOrder (c.1 + c.2.length) hi rest))

mutual

/-- Whether a tree is formed can be computed if it can for buffers. -/
def decideFormed (P : Buffer → Prop) [DecidablePred P] : (t : Tree) → Decidable (t.Formed P)
  | branch _ _ cs n _ =>
      have := decideFormedAll P cs
      inferInstanceAs (Decidable (InOrder 0 n cs ∧ FormedAll P cs))
  | packed b => inferInstanceAs (Decidable (P b))

/-- The same for all children. -/
def decideFormedAll (P : Buffer → Prop) [DecidablePred P] :
    (cs : List (Nat × Tree)) → Decidable (FormedAll P cs)
  | [] => inferInstanceAs (Decidable True)
  | (_, t) :: rest =>
      have := decideFormed P t
      have := decideFormedAll P rest
      inferInstanceAs (Decidable (Formed P t ∧ FormedAll P rest))

end

instance (t : Tree) : Decidable t.WellFormed := decideFormed Buffer.WellFormed t

namespace Fits

variable {P : Buffer → Prop} {lo mid hi : Nat} {cs cs' : List (Nat × Tree)}

theorem nil (h : lo ≤ hi) : Fits P lo hi [] := ⟨h, trivial⟩

theorem cons {c : Nat × Tree} (hlo : lo ≤ c.1) (hc : c.2.Formed P)
    (hrest : Fits P (c.1 + c.2.length) hi cs) : Fits P lo hi (c :: cs) :=
  ⟨⟨hlo, hrest.inOrder⟩, ⟨hc, hrest.formed⟩⟩

theorem of_cons {c : Nat × Tree} (h : Fits P lo hi (c :: cs)) :
    lo ≤ c.1 ∧ c.2.Formed P ∧ Fits P (c.1 + c.2.length) hi cs :=
  ⟨h.inOrder.1, h.formed.1, h.inOrder.2, h.formed.2⟩

theorem le (h : Fits P lo hi cs) : lo ≤ hi := by
  induction cs generalizing lo with
  | nil => exact h.inOrder
  | cons c rest ih =>
      obtain ⟨hlo, _, hrest⟩ := h.of_cons
      have := ih hrest
      omega

theorem mono_left {lo' : Nat} (h : Fits P lo hi cs) (hlo : lo' ≤ lo) : Fits P lo' hi cs := by
  cases cs with
  | nil => exact .nil (Nat.le_trans hlo h.inOrder)
  | cons c rest =>
      obtain ⟨hle, hc, hrest⟩ := h.of_cons
      exact .cons (Nat.le_trans hlo hle) hc hrest

theorem mono {hi' : Nat} (h : Fits P lo hi cs) (hhi : hi ≤ hi') : Fits P lo hi' cs := by
  induction cs generalizing lo with
  | nil => exact .nil (Nat.le_trans h.inOrder hhi)
  | cons c rest ih =>
      obtain ⟨hle, hc, hrest⟩ := h.of_cons
      exact .cons hle hc (ih hrest)

theorem append (h : Fits P lo mid cs) (h' : Fits P mid hi cs') : Fits P lo hi (cs ++ cs') := by
  induction cs generalizing lo with
  | nil => exact h'.mono_left h.inOrder
  | cons c rest ih =>
      obtain ⟨hle, hc, hrest⟩ := h.of_cons
      exact .cons hle hc (ih hrest)

/-- Every child lies between the two positions. -/
theorem inside (h : Fits P lo hi cs) : ∀ c ∈ cs, lo ≤ c.1 ∧ c.1 + c.2.length ≤ hi := by
  induction cs generalizing lo with
  | nil => simp
  | cons c rest ih =>
      obtain ⟨hle, -, hrest⟩ := h.of_cons
      refine List.forall_mem_cons.2 ⟨⟨hle, hrest.le⟩, fun x hx => ?_⟩
      have hin := ih hrest x hx
      omega

/-- Where one part of the children ends, the other begins. -/
theorem split (h : Fits P lo hi (cs ++ cs')) :
    ∃ mid, Fits P lo mid cs ∧ Fits P mid hi cs' := by
  induction cs generalizing lo with
  | nil => exact ⟨lo, .nil (Nat.le_refl _), h⟩
  | cons c rest ih =>
      obtain ⟨hle, hc, hrest⟩ := h.of_cons
      obtain ⟨mid, h₁, h₂⟩ := ih hrest
      exact ⟨mid, .cons hle hc h₁, h₂⟩

/-- Children counted from another place. -/
theorem move {f : Nat → Nat} {lo' hi' : Nat} (h : Fits P lo hi cs) (hlo : lo' ≤ f lo)
    (hhi : f hi ≤ hi') (hf : ∀ a b, lo ≤ a → a + b ≤ hi → f (a + b) = f a + b) :
    Fits P lo' hi' (cs.map fun c => (f c.1, c.2)) := by
  induction cs generalizing lo lo' with
  | nil =>
      have hle : lo ≤ hi := h.inOrder
      have key := hf lo (hi - lo) (Nat.le_refl _) (by omega)
      rw [show lo + (hi - lo) = hi by omega] at key
      exact .nil (by omega)
  | cons c rest ih =>
      obtain ⟨hle, hc, hrest⟩ := h.of_cons
      have hend := hrest.le
      have hstart := hf lo (c.1 - lo) (Nat.le_refl _) (by omega)
      rw [show lo + (c.1 - lo) = c.1 by omega] at hstart
      refine .cons (by simp only; omega) hc ?_
      refine ih hrest ?_ fun a b ha hb => hf a b (by omega) hb
      exact Nat.le_of_eq (hf c.1 c.2.length hle hend).symm

end Fits

/-! ### Buffers of a tree -/

mutual

/-- All buffers, in the order of the document. -/
def buffers : Tree → List Buffer
  | branch _ _ cs _ _ => buffersAll cs
  | packed b => [b]

/-- All buffers of children. -/
def buffersAll : List (Nat × Tree) → List Buffer
  | [] => []
  | (_, t) :: rest => buffers t ++ buffersAll rest

end

mutual

/-- What is known of the buffers may be used afterwards. -/
theorem Formed.of_buffers {P Q : Buffer → Prop} : ∀ {t : Tree}, t.Formed P →
    (∀ b ∈ t.buffers, P b → Q b) → t.Formed Q
  | branch _ _ cs _ _, h, hb => by
      refine ⟨h.1, FormedAll.of_buffers h.2 hb⟩
  | packed b, h, hb => hb b (by simp [buffers]) h

theorem FormedAll.of_buffers {P Q : Buffer → Prop} : ∀ {cs : List (Nat × Tree)}, FormedAll P cs →
    (∀ b ∈ buffersAll cs, P b → Q b) → FormedAll Q cs
  | [], _, _ => trivial
  | (_, t) :: rest, h, hb => by
      constructor
      · exact Formed.of_buffers h.1 fun b hmem => hb b (List.mem_append_left _ hmem)
      · exact FormedAll.of_buffers h.2 fun b hmem => hb b (List.mem_append_right _ hmem)

end

/-! ### Stamps -/

@[simp] theorem length_number (epoch n : Nat) (t : Tree) :
    (t.number epoch n).1.length = t.length := by
  cases t with
  | branch stamp ty cs len ps => cases stamp <;> rfl
  | packed b => cases h : b.stamp <;> simp [number, h, length]

/-- Stamps do not matter for a property of buffers. -/
def IgnoresStamps (P : Buffer → Prop) : Prop :=
  ∀ (b : Buffer) (s : Option Stamp), P b → P { b with stamp := s }

mutual

theorem formed_number {P : Buffer → Prop} (hP : IgnoresStamps P) (epoch : Nat) :
    ∀ (t : Tree) (n : Nat), t.Formed P → (t.number epoch n).1.Formed P
  | branch (some _) _ _ _ _, _, h => h
  | branch none _ cs len _, n, h => by
      have key := fits_numberAll hP epoch cs (n + 1) 0 len ⟨h.1, h.2⟩
      exact ⟨key.inOrder, key.formed⟩
  | packed b, n, h => by
      cases hb : b.stamp with
      | none =>
          simp only [number, hb]
          exact hP b _ h
      | some _ =>
          simp only [number, hb]
          exact h

theorem fits_numberAll {P : Buffer → Prop} (hP : IgnoresStamps P) (epoch : Nat) :
    ∀ (cs : List (Nat × Tree)) (n lo hi : Nat), Fits P lo hi cs →
      Fits P lo hi (numberAll epoch cs n).1
  | [], _, _, _, h => h
  | (p, t) :: rest, n, lo, hi, h => by
      obtain ⟨hle, ht, hrest⟩ := h.of_cons
      refine .cons hle (formed_number hP epoch t n ht) ?_
      rw [length_number]
      exact fits_numberAll hP epoch rest _ _ hi hrest

end

/-- Stamping keeps a tree formed. -/
theorem formed_stampAll {P : Buffer → Prop} (hP : IgnoresStamps P) (epoch : Nat) {t : Tree}
    (h : t.Formed P) : (t.stampAll epoch).Formed P :=
  formed_number hP epoch t 0 h

end Tree

end IncrementalLR
