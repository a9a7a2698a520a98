/-
**Node types and node sets.**

A node type has a name, an id and properties; a type without a name is anonymous and its nodes are
looked through by navigation.  A node set holds the types of a grammar, each at the place of its
id.

Two types are the same only if they come from the same definition.  Every call that defines types
is given a number, its *epoch*, by its caller, and a type remembers the epoch of its definition;
so equal epoch and equal id mean the same type.  Extending a set gives the types that change a new
epoch and leaves the others alone.

Main definitions:

* `NodeType`, `NodeType.none`, `NodeType.same`, `NodeType.isNamed` — node types;
* `PropSource`, `PropSource.apply` — rules that give a property to types chosen by name or group;
* `NodeSet`, `NodeSet.ofTypes`, `NodeSet.extend` — sets of types.

Main results:

* `NodeSet.ofTypes_eq_ok_iff` — a set is accepted exactly if every type stands at the place of its
  id.
-/

import IncrementalLR.Data.Keyed
import IncrementalLR.Node.Prop

set_option relaxedAutoImplicit false
set_option autoImplicit false

namespace IncrementalLR

/-! ### Node types -/

/-- A node type.  Types of the same epoch and id are one type. -/
structure NodeType where
  /-- The number of the call that defined the type; 0 for the type of grouping nodes. -/
  epoch : Nat
  id : Nat
  /-- The name, empty for anonymous types. -/
  name : String
  props : Keyed PropKey PropValue := {}
  isTop : Bool := false
  isError : Bool := false
  isSkipped : Bool := false
deriving Repr, DecidableEq

namespace NodeType

/-- The anonymous type of nodes that only group other nodes. -/
def none : NodeType := { epoch := 0, id := 0, name := "" }

instance : Inhabited NodeType := ⟨none⟩

/-- Whether navigation looks through nodes of this type. -/
def isAnonymous (t : NodeType) : Bool := t.name.isEmpty

/-- The value of a property of the type. -/
def prop? (t : NodeType) (k : PropKey) : Option PropValue := t.props.get? k

/-- The groups that the type belongs to. -/
def groups (t : NodeType) : List String := ((t.prop? .group).bind PropValue.names?).getD []

/-- Whether the type has the given name or belongs to a group of that name. -/
def isNamed (t : NodeType) (s : String) : Bool := t.name = s || t.groups.contains s

/-- Whether two types come from the same definition. -/
def same (a b : NodeType) : Bool := a.epoch = b.epoch && a.id = b.id

theorem same_self (t : NodeType) : same t t = true := by simp [same]

/-- The type as text. -/
def describe (t : NodeType) : String :=
  "NodeType \x7b name: " ++ Text.quote t.name ++ s!", id: {t.id} \x7d"

/-- Adds properties one after the other: names are appended to names, any other value replaces the
one before it. -/
def addProps (m : Keyed PropKey PropValue) :
    List (PropKey × PropValue) → Keyed PropKey PropValue
  | [] => m
  | (k, v) :: rest =>
      match m.get? k, v with
      | some (.names old), .names more => addProps (m.insert k (.names (old ++ more))) rest
      | _, v => addProps (m.insert k v) rest

end NodeType

/-! ### Property sources -/

/-- A rule that gives a property to types chosen by name or group. -/
structure PropSource where
  prop : PropKey
  table : Keyed String PropValue

namespace PropSource

/-- The source with the given selectors.  A selector lists names between spaces, and for a name
that is selected twice the last entry counts. -/
def ofEntries (prop : PropKey) (entries : List (String × PropValue)) : PropSource where
  prop := prop
  table := .ofList (entries.flatMap fun e => (Text.words e.1).map fun w => (w, e.2))

/-- The property for a type: by its name, else by the first of its groups that is selected. -/
def apply (s : PropSource) (t : NodeType) : Option (PropKey × PropValue) :=
  match s.table.get? t.name with
  | some v => some (s.prop, v)
  | none => (t.groups.findSome? s.table.get?).map fun v => (s.prop, v)

end PropSource

/-! ### Node sets -/

/-- The node types of a grammar, each at the place of its id. -/
structure NodeSet where
  types : Array NodeType
deriving Inhabited, DecidableEq

namespace NodeSet

/-- The number of types. -/
def size (s : NodeSet) : Nat := s.types.size

/-- The type with an id. -/
def get? (s : NodeSet) (id : Nat) : Option NodeType := s.types[id]?

/-- The first type that does not stand at the place of its id, looked for from place `i` on. -/
def mismatch? : Nat → List NodeType → Option (Nat × Nat)
  | _, [] => none
  | i, t :: rest => if t.id = i then mismatch? (i + 1) rest else some (i, t.id)

/-- The set of the given types, each of which has to stand at the place of its id. -/
def ofTypes (types : List NodeType) : Except ParseError NodeSet :=
  match mismatch? 0 types with
  | some (index, id) => .error (.nodeSetMismatch index id)
  | none => .ok ⟨types.toArray⟩

/-- The type with the properties that the sources give it; it becomes a type of its own, of the
given epoch, if there are any. -/
def extendType (epoch : Nat) (sources : List PropSource) (t : NodeType) : NodeType :=
  match sources.filterMap (·.apply t) with
  | [] => t
  | added => { t with epoch := epoch, props := NodeType.addProps t.props added }

/-- The set with the properties that the sources give.  Types that receive none stay the same. -/
def extend (epoch : Nat) (s : NodeSet) (sources : List PropSource) : NodeSet :=
  ⟨s.types.map (extendType epoch sources)⟩

theorem mismatch?_eq_none_iff (i : Nat) (types : List NodeType) :
    mismatch? i types = none ↔ ∀ (j : Nat) (t : NodeType), types[j]? = some t → t.id = i + j := by
  induction types generalizing i with
  | nil => simp [mismatch?]
  | cons t rest ih =>
      constructor
      · intro h j u hu
        by_cases ht : t.id = i
        · simp only [mismatch?, ht, if_true] at h
          cases j with
          | zero => simp at hu; subst hu; omega
          | succ j =>
              have := (ih (i + 1)).1 h j u (by simpa using hu)
              omega
        · simp [mismatch?, ht] at h
      · intro h
        have ht : t.id = i := by simpa using h 0 t (by simp)
        simp only [mismatch?, ht, if_true]
        refine (ih (i + 1)).2 ?_
        intro j u hu
        have := h (j + 1) u (by simpa using hu)
        omega

/-- A set is accepted exactly if every type stands at the place of its id. -/
theorem ofTypes_eq_ok_iff (types : List NodeType) (s : NodeSet) :
    ofTypes types = .ok s ↔
      (∀ (j : Nat) (t : NodeType), types[j]? = some t → t.id = j) ∧ s = ⟨types.toArray⟩ := by
  have key := mismatch?_eq_none_iff 0 types
  simp only [Nat.zero_add] at key
  unfold ofTypes
  cases h : mismatch? 0 types with
  | none =>
      simp only [Except.ok.injEq]
      exact ⟨fun e => ⟨key.1 h, e.symm⟩, fun e => e.2.symm⟩
  | some p =>
      simp only [reduceCtorEq, false_iff]
      intro e
      rw [key.2 e.1] at h
      cases h

end NodeSet

end IncrementalLR
