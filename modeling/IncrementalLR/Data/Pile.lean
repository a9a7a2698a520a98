/-
**Piles: lists that know their height.**

The frames and the records of a parse stack are pushed and popped at one end, and their number is
asked for at every step.  A `Pile` holds its items newest first together with their number, so
that asking costs nothing; the two always agree because the agreement is part of the type.

Main definitions:

* `Pile`, `Pile.items`, `Pile.size` — the items, newest first, and their number;
* `Pile.push`, `Pile.drop`, `Pile.get?`, `Pile.ofItems` — the operations on them.

Main results:

* `Pile.ext_items` — a pile is determined by its items;
* `Pile.items_push`, `Pile.items_drop`, `Pile.items_ofItems` — what each operation does to the
  items.
-/

set_option relaxedAutoImplicit false
set_option autoImplicit false

namespace IncrementalLR

/-- Items, newest first, with their number. -/
structure Pile (α : Type) where
  items : List α
  size : Nat
  size_eq : size = items.length

namespace Pile

variable {α : Type}

/-! ### Operations -/

/-- The pile of the given items, newest first. -/
def ofItems (l : List α) : Pile α := ⟨l, l.length, rfl⟩

/-- The pile without items. -/
def empty : Pile α := ⟨[], 0, rfl⟩

instance : Inhabited (Pile α) := ⟨empty⟩

instance : EmptyCollection (Pile α) := ⟨empty⟩

/-- Puts an item on top. -/
def push (p : Pile α) (a : α) : Pile α := ⟨a :: p.items, p.size + 1, by simp [p.size_eq]⟩

/-- Takes the newest `k` items off. -/
def drop (p : Pile α) (k : Nat) : Pile α :=
  ⟨p.items.drop k, p.size - k, by simp [p.size_eq]⟩

/-- The newest item. -/
def top? (p : Pile α) : Option α := p.items.head?

/-- The item with `i` newer ones above it. -/
def get? (p : Pile α) (i : Nat) : Option α := p.items[i]?

/-- Whether there is no item. -/
def isEmpty (p : Pile α) : Bool := p.items.isEmpty

/-! ### What the operations do to the items -/

theorem ext_items {p q : Pile α} (h : p.items = q.items) : p = q := by
  obtain ⟨l, n, hn⟩ := p
  obtain ⟨l', n', hn'⟩ := q
  subst hn hn'
  cases h
  rfl

@[simp] theorem items_ofItems (l : List α) : (ofItems l).items = l := rfl

@[simp] theorem items_empty : (empty : Pile α).items = [] := rfl

@[simp] theorem items_push (p : Pile α) (a : α) : (p.push a).items = a :: p.items := rfl

@[simp] theorem items_drop (p : Pile α) (k : Nat) : (p.drop k).items = p.items.drop k := rfl

@[simp] theorem size_ofItems (l : List α) : (ofItems l).size = l.length := rfl

@[simp] theorem size_empty : (empty : Pile α).size = 0 := rfl

@[simp] theorem size_push (p : Pile α) (a : α) : (p.push a).size = p.size + 1 := rfl

@[simp] theorem size_drop (p : Pile α) (k : Nat) : (p.drop k).size = p.size - k := rfl

@[simp] theorem drop_zero (p : Pile α) : p.drop 0 = p := ext_items (by simp)

end Pile

end IncrementalLR
