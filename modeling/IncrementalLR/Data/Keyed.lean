/-
**Association lists that keep the order of first insertion.**

Names of top rules, dialects, properties and precedences are all looked up by key, and several of
them are also listed back in the order in which they were given.  A `Keyed` value is a list of
pairs in which a key stands at the place of its first insertion and carries its latest value.

Main definitions:

* `Keyed`, `Keyed.get?` — the pairs and the look-up;
* `Keyed.insert`, `Keyed.ofList` — adding a pair, and adding a list of pairs one after the other.

Main results:

* `Keyed.get?_insert_self`, `Keyed.get?_insert_of_ne` — the latest value of a key is found, and no
  other key is touched.
-/

set_option relaxedAutoImplicit false
set_option autoImplicit false

namespace IncrementalLR

/-- Pairs of keys and values in the order in which the keys first came. -/
structure Keyed (κ β : Type) where
  entries : List (κ × β) := []
deriving Repr, DecidableEq

namespace Keyed

variable {κ β : Type} [DecidableEq κ]

/-! ### Look-up -/

/-- The pairs of a list, looked up by key. -/
def find? (k : κ) : List (κ × β) → Option β
  | [] => none
  | (k', v) :: rest => if k' = k then some v else find? k rest

/-- The value of a key. -/
def get? (m : Keyed κ β) (k : κ) : Option β := find? k m.entries

/-- The keys in the order in which they first came. -/
def keys (m : Keyed κ β) : List κ := m.entries.map (·.1)

/-- The values in the order of their keys. -/
def values (m : Keyed κ β) : List β := m.entries.map (·.2)

/-! ### Insertion -/

/-- Sets the value of a key: in place if the key is there, at the end if it is not. -/
def put (k : κ) (v : β) : List (κ × β) → List (κ × β)
  | [] => [(k, v)]
  | (k', v') :: rest => if k' = k then (k', v) :: rest else (k', v') :: put k v rest

/-- Sets the value of a key. -/
def insert (m : Keyed κ β) (k : κ) (v : β) : Keyed κ β := ⟨put k v m.entries⟩

/-- Inserts the pairs of a list one after the other. -/
def ofList (pairs : List (κ × β)) : Keyed κ β :=
  pairs.foldl (fun m p => m.insert p.1 p.2) {}

theorem find?_put (k k' : κ) (v : β) (l : List (κ × β)) :
    find? k' (put k v l) = if k = k' then some v else find? k' l := by
  induction l with
  | nil => simp [put, find?]
  | cons p rest ih =>
      obtain ⟨a, b⟩ := p
      by_cases h : a = k
      · subst h
        by_cases h' : a = k' <;> simp [put, find?, h']
      · by_cases h' : a = k'
        · subst h'
          simp [put, find?, h, Ne.symm h]
        · simp [put, find?, h, h', ih]

@[simp] theorem get?_insert_self (m : Keyed κ β) (k : κ) (v : β) :
    (m.insert k v).get? k = some v := by
  simp [get?, insert, find?_put]

theorem get?_insert_of_ne (m : Keyed κ β) {k k' : κ} (v : β) (h : k ≠ k') :
    (m.insert k v).get? k' = m.get? k' := by
  simp [get?, insert, find?_put, h]

end Keyed

end IncrementalLR
