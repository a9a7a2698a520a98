/-
**Balancing only changes groups.**

Groups of children have the type of grouping nodes, and children of that type may stand among those
that are balanced; balancing may open such a child.  Spreading children out, that is, putting the
children of a grouping node in its place until none is left, undoes all of this: the same children
come out before and after balancing, in the same order and at the same places in the text.

Positions are counted from one another, and stored with 32 bits.  A child that is opened passes
its own position on to its children, so that the sum may be too large to be stored.

Main definitions:

* `Tree.spread`, `Tree.spreadAll` — children without grouping nodes, at their places in the text;
* `Tree.Orderly`, `Tree.OrderlyAll` — children that follow each other, in grouping nodes, too;
* `Tree.Stored` — what holds of every tree that is stored.

Main results:

* `Tree.spread_word` — positions with 32 bits, where all children spread out have such positions;
* `Tree.divideF_spread` — dividing keeps the children that come out;
* `Tree.balance_spread` — **balancing keeps type, length, properties and all children**;
* `Tree.balance_moves` — children that move since their positions are too large.
-/

import IncrementalLR.Proofs.BalancedViews

set_option relaxedAutoImplicit false
set_option autoImplicit false

namespace IncrementalLR

namespace Tree

/-! ### Spreading out -/

mutual

/-- A tree at a place in the text, or, if it is a grouping node, the children spread out. -/
def spread : Tree → Nat → List (Nat × Tree)
  | branch stamp ty cs length ps, base =>
      if ty.same .none then spreadAll cs base else [(base, branch stamp ty cs length ps)]
  | packed b, base => [(base, packed b)]

/-- All children of a node at a place in the text, spread out. -/
def spreadAll : List (Nat × Tree) → Nat → List (Nat × Tree)
  | [], _ => []
  | (pos, t) :: rest, base => t.spread (base + pos) ++ spreadAll rest base

end

theorem spreadAll_append (cs cs' : List (Nat × Tree)) (base : Nat) :
    spreadAll (cs ++ cs') base = spreadAll cs base ++ spreadAll cs' base := by
  induction cs with
  | nil => simp [spreadAll]
  | cons c rest ih => simp only [List.cons_append, spreadAll, ih, List.append_assoc]

mutual

/-- What is spread out lies after the start of the node. -/
theorem le_of_mem_spread {c : Nat × Tree} : ∀ {t : Tree} {base : Nat}, c ∈ t.spread base →
    base ≤ c.1
  | branch stamp ty cs length ps, base, h => by
      rw [spread] at h
      split at h
      · exact le_of_mem_spreadAll h
      · rw [List.mem_singleton] at h
        exact Nat.le_of_eq (congrArg Prod.fst h).symm
  | packed b, base, h => by
      rw [spread, List.mem_singleton] at h
      exact Nat.le_of_eq (congrArg Prod.fst h).symm

theorem le_of_mem_spreadAll {c : Nat × Tree} : ∀ {cs : List (Nat × Tree)} {base : Nat},
    c ∈ spreadAll cs base → base ≤ c.1
  | [], _, h => by cases h
  | (pos, t) :: rest, base, h => by
      rw [spreadAll, List.mem_append] at h
      rcases h with h | h
      · exact Nat.le_trans (Nat.le_add_right _ _) (le_of_mem_spread h)
      · exact le_of_mem_spreadAll h

end

mutual

/-- Counted from further on, everything lies further on. -/
theorem spread_add (k : Nat) : ∀ (t : Tree) (base : Nat),
    t.spread (base + k) = (t.spread base).map fun c => (c.1 + k, c.2)
  | branch stamp ty cs length ps, base => by
      rw [spread, spread]
      split
      · exact spreadAll_add k cs base
      · rfl
  | packed b, base => rfl

theorem spreadAll_add (k : Nat) : ∀ (cs : List (Nat × Tree)) (base : Nat),
    spreadAll cs (base + k) = (spreadAll cs base).map fun c => (c.1 + k, c.2)
  | [], _ => rfl
  | (pos, t) :: rest, base => by
      rw [spreadAll, spreadAll, List.map_append, ← spreadAll_add k rest base,
        ← spread_add k t (base + pos), Nat.add_right_comm]

end

/-- A position may be stored with 32 bits if what is spread out has such positions. -/
theorem spread_word {t : Tree} {base n : Nat} (h : ∀ c ∈ t.spread (base + n), c.1 ≤ maxWord) :
    t.spread (base + word n) = t.spread (base + n) := by
  by_cases hn : n ≤ maxWord
  · rw [word_of_le hn]
  · -- nothing is there that could be misplaced
    have hnone : t.spread (base + n) = [] := by
      refine List.eq_nil_iff_forall_not_mem.2 fun c hc => ?_
      have hle := le_of_mem_spread hc
      have hword := h c hc
      omega
    have hless : word n ≤ n := Nat.mod_le _ _
    rw [hnone]
    rw [show base + n = base + word n + (n - word n) by omega, spread_add] at hnone
    exact List.map_eq_nil_iff.1 hnone

/-! ### Children in order -/

mutual

/-- If a tree is a grouping node, its children follow each other. -/
def Orderly : Tree → Prop
  | branch _ ty cs _ _ => ty.same .none = true → OrderlyAll cs
  | packed _ => True

/-- Children follow each other without overlap, and so do those of the grouping nodes among them. -/
def OrderlyAll : List (Nat × Tree) → Prop
  | [] => True
  | (pos, t) :: rest => (∀ c ∈ rest, pos + t.length ≤ c.1) ∧ Orderly t ∧ OrderlyAll rest

end

mutual

/-- Whether the children of a grouping node follow each other can be computed. -/
def decideOrderly : (t : Tree) → Decidable t.Orderly
  | branch _ ty cs _ _ =>
      have := decideOrderlyAll cs
      inferInstanceAs (Decidable (ty.same .none = true → OrderlyAll cs))
  | packed _ => inferInstanceAs (Decidable True)

/-- The same for all children. -/
def decideOrderlyAll : (cs : List (Nat × Tree)) → Decidable (OrderlyAll cs)
  | [] => inferInstanceAs (Decidable True)
  | (pos, t) :: rest =>
      have := decideOrderly t
      have := decideOrderlyAll rest
      inferInstanceAs
        (Decidable ((∀ c ∈ rest, pos + t.length ≤ c.1) ∧ Orderly t ∧ OrderlyAll rest))

end

instance (cs : List (Nat × Tree)) : Decidable (OrderlyAll cs) := decideOrderlyAll cs

theorem orderlyAll_append {cs cs' : List (Nat × Tree)} (h : OrderlyAll (cs ++ cs')) :
    OrderlyAll cs ∧ OrderlyAll cs' := by
  induction cs with
  | nil => exact ⟨trivial, h⟩
  | cons c rest ih =>
      obtain ⟨hafter, hc, hrest⟩ := h
      obtain ⟨hleft, hright⟩ := ih hrest
      exact ⟨⟨fun x hx => hafter x (List.mem_append_left _ hx), hc, hleft⟩, hright⟩

/-- Children do not start before the first of them. -/
theorem OrderlyAll.first_le {c : Nat × Tree} {rest : List (Nat × Tree)}
    (h : OrderlyAll (c :: rest)) : ∀ x ∈ c :: rest, c.1 ≤ x.1 := by
  refine List.forall_mem_cons.2 ⟨Nat.le_refl _, fun x hx => ?_⟩
  exact Nat.le_trans (Nat.le_add_right _ _) (h.1 x hx)

/-- A branch that counts for more than one node is a grouping node. -/
theorem opens_of_groupSize {t : Tree} (hbranch : t.isBranch = true)
    (hsize : 1 < t.groupSize .none) :
    (∀ base, t.spread base = spreadAll t.children base) ∧ (t.Orderly → OrderlyAll t.children) := by
  cases t with
  | packed b => cases hbranch
  | branch stamp ty cs length ps =>
      rw [groupSize] at hsize
      split at hsize
      · rename_i hsame
        rw [Bool.and_eq_true] at hsame
        refine ⟨fun base => ?_, fun h => h hsame.2⟩
        rw [spread, if_pos hsame.2]
        rfl
      · omega

/-! ### Balancing -/

/-- A constructor of grouping nodes. -/
def Opens (make : List (Nat × Tree) → Nat → Tree) : Prop :=
  ∀ cs length base, (make cs length).spread base = spreadAll cs base

/-- Dividing with some fuel keeps the children that come out. -/
def DividesSpread (inner : List (Nat × Tree) → Nat → Tree) (fuel : Nat) : Prop :=
  ∀ (limit : Nat) (cs : List (Nat × Tree)) (offset start base : Nat),
    3 * weightAll cs + 2 ≤ fuel ∨ (3 * weightAll cs ≤ fuel ∧ limit ≤ totalSize .none cs) →
    (cs ≠ [] → 1 ≤ limit) → OrderlyAll cs → (∀ c ∈ cs, start ≤ c.1 + offset) →
    (∀ c ∈ spreadAll cs (base + offset), c.1 ≤ maxWord) →
      spreadAll (divideF .none inner fuel limit cs offset start) (base + start) =
        spreadAll cs (base + offset)

/-- Grouping with some fuel does so, too. -/
def GroupsSpread (inner : List (Nat × Tree) → Nat → Tree) (fuel : Nat) : Prop :=
  ∀ (top : List (Nat × Tree) → Nat → Tree) (cs : List (Nat × Tree)) (start length base : Nat),
    Opens top → 3 * weightAll cs + 1 ≤ fuel → OrderlyAll cs → (∀ c ∈ cs, start ≤ c.1) →
    (∀ c ∈ spreadAll cs base, c.1 ≤ maxWord) →
      (groupF .none inner fuel top cs start length).spread (base + start) = spreadAll cs base

section Grouping

variable {inner : List (Nat × Tree) → Nat → Tree} {fuel : Nat}

/-- What a group divides its children into. -/
theorem DividesSpread.group (h : DividesSpread inner fuel) {cs : List (Nat × Tree)}
    {start base : Nat} (hfuel : 3 * weightAll cs ≤ fuel) (horderly : OrderlyAll cs)
    (hstart : ∀ c ∈ cs, start ≤ c.1) (hword : ∀ c ∈ spreadAll cs base, c.1 ≤ maxWord) :
    spreadAll (divideF .none inner fuel (groupLimit (totalSize .none cs)) cs 0 start)
      (base + start) = spreadAll cs base := by
  refine h _ cs 0 start base (Or.inr ⟨hfuel, groupLimit_le _⟩) (fun hne => ?_) horderly hstart hword
  obtain ⟨c, rest, rfl⟩ := List.exists_cons_of_ne_nil hne
  exact groupLimit_pos .none c rest

theorem groupF_spread (hdivides : DividesSpread inner fuel) : GroupsSpread inner (fuel + 1) := by
  intro top cs start length base htop hfuel horderly hstart hword
  rw [groupF, htop]
  exact hdivides.group (by omega) horderly hstart hword

theorem divideF_spread (hopens : Opens inner) (hgroups : GroupsSpread inner fuel)
    (hdivides : DividesSpread inner fuel) : DividesSpread inner (fuel + 1) := by
  intro limit cs offset start base hfuel hlimit horderly hstart hword
  cases cs with
  | nil =>
      rw [divideF]
      · rfl
      · simp
  | cons c rest =>
      have hone : 1 ≤ limit := hlimit (by simp)
      have hsmall := weight_group_lt .none limit c rest
      have hsplit := growGroup_append .none limit (c.2.groupSize .none) rest
      have hgroup := growGroup_size .none limit (c.2.groupSize .none) rest
      rw [divideF]
      generalize growGroup .none limit (c.2.groupSize .none) rest = grown at hsmall hsplit hgroup ⊢
      obtain ⟨taken, size, after⟩ := grown
      simp only at hsmall hsplit hgroup ⊢
      subst hsplit
      have hweight : weightAll (c :: (taken ++ after)) =
          c.2.weight + weightAll taken + weightAll after := by
        rw [weightAll, weightAll_append]
        omega
      have hpos := c.2.weight_pos
      rw [← List.cons_append] at horderly hstart hword ⊢
      rw [spreadAll_append] at hword ⊢
      rw [List.forall_mem_append] at hstart hword
      obtain ⟨horderlyTaken, horderlyAfter⟩ := orderlyAll_append horderly
      have hdone := hdivides limit after offset start base (Or.inl (by omega)) (fun _ => hone)
        horderlyAfter hstart.2 hword.2
      have hfirst := hstart.1 c List.mem_cons_self
      have hbase : base + start + (c.1 + offset - start) = base + offset + c.1 := by omega
      cases hlast : taken.getLast? with
      | none =>
          obtain rfl : taken = [] := List.getLast?_eq_none_iff.1 hlast
          simp only [totalSize, Nat.add_zero] at hgroup
          subst hgroup
          obtain ⟨-, hc, -⟩ := horderlyTaken
          have hwordC : ∀ x ∈ c.2.spread (base + offset + c.1), x.1 ≤ maxWord := by
            simpa [spreadAll] using hword.1
          simp only [spreadAll, List.append_nil]
          split
          · -- the child gives way to its children
            rename_i hopen
            rw [Bool.and_eq_true, decide_eq_true_eq] at hopen
            obtain ⟨hspread, hnested⟩ := opens_of_groupSize hopen.2 (by omega)
            have hchildren := weight_children hopen.2
            have hplace : base + offset + c.1 = base + (c.1 + offset) := by omega
            rw [hspread, hplace] at hwordC ⊢
            rw [spreadAll_append, hdone, hdivides limit c.2.children (c.1 + offset) start base
              (Or.inl (by omega)) (fun _ => hone) (hnested hc) (fun x _ => by omega) hwordC]
          · rw [spreadAll, spread_word (by rwa [hbase]), hbase, hdone]
      | some last =>
          -- the child starts a group
          have hne : taken ≠ [] := by
            rintro rfl
            cases hlast
          have hfuel' : 3 * weightAll (c :: taken) + 1 ≤ fuel := by
            rcases hfuel with hfuel | ⟨hfuel, hlimit⟩
            · simp only [weightAll]
              omega
            · have := hsmall hlimit hne
              omega
          have hnode := hgroups inner (c :: taken) c.1 (last.1 + last.2.length - c.1)
            (base + offset) hopens hfuel' horderlyTaken horderlyTaken.first_le hword.1
          simp only
          rw [spreadAll, spread_word (by rw [hbase, hnode]; exact hword.1), hbase, hnode, hdone]

/-- Grouping and dividing keep the children that come out. -/
theorem group_divide_spread (hopens : Opens inner) (fuel : Nat) :
    GroupsSpread inner fuel ∧ DividesSpread inner fuel := by
  induction fuel with
  | zero =>
      constructor
      · intro _ _ _ _ _ _ hfuel
        omega
      · intro limit cs offset start base hfuel _ _ _ _
        cases cs with
        | nil =>
            rw [divideF]
            rfl
        | cons c rest =>
            have := weightAll_cons_pos c rest
            omega
  | succ fuel ih => exact ⟨groupF_spread ih.2, divideF_spread hopens ih.1 ih.2⟩

end Grouping

/-- What holds of every tree that is stored: the length has 32 bits, and the properties are those of
single nodes. -/
structure Stored (t : Tree) : Prop where
  length_le : t.length ≤ maxWord
  perNode : ∀ x ∈ t.props, x.1.perNode = true

theorem stored_make (ty : NodeType) (cs : List (Nat × Tree)) (length : Nat)
    (ps : List (PropKey × PropValue)) : (make ty cs length ps).Stored where
  length_le := Nat.min_le_right _ _
  perNode _ hx := (List.mem_filter.1 hx).2

/-- **Balancing keeps type, length, properties and all children**, grouping nodes apart, if the
children follow each other and have positions with 32 bits when they are spread out. -/
theorem balance_spread {t : Tree} (hstored : t.Stored) (horderly : OrderlyAll t.children)
    (hword : ∀ c ∈ spreadAll t.children 0, c.1 ≤ maxWord) :
    t.balance.type = t.type ∧ t.balance.length = t.length ∧ t.balance.props = t.props ∧
      spreadAll t.balance.children 0 = spreadAll t.children 0 := by
  unfold balance
  split
  · exact ⟨rfl, rfl, rfl, rfl⟩
  · unfold balanceWith
    rw [groupF]
    refine ⟨rfl, Nat.min_eq_left hstored.length_le, List.filter_eq_self.2 hstored.perNode, ?_⟩
    have hopens : Opens fun cs length => make .none cs length [] := fun _ _ _ => rfl
    exact (group_divide_spread hopens _).2.group (Nat.le_refl _) horderly
      (fun _ _ => Nat.zero_le _) hword

/-- An item of a list. -/
def item : Tree := make { epoch := 1, id := 1, name := "Item" } [] 1 []

/-- Nine groups of one item each in a group of their own. -/
def ninePack : Tree :=
  make .none ((List.range 9).map fun i => (i, make .none [(0, item)] 1 [])) 9 []

/-- A list of eight items and a group with nine more at a position. -/
def listTo (pos : Nat) : Tree :=
  make { epoch := 1, id := 0, name := "List" }
    ((List.range 8).map (fun i => (i, item)) ++ [(pos, ninePack)]) (pos + 9) []

/-- A list in which the group comes right after the items is balanced: the group is opened, and all
items stay where they are. -/
theorem balance_spread_near :
    ((listTo 8).Stored ∧ OrderlyAll (listTo 8).children ∧
      ∀ c ∈ spreadAll (listTo 8).children 0, c.1 ≤ maxWord) ∧
    (listTo 8).balance.type = (listTo 8).type ∧ (listTo 8).balance.length = (listTo 8).length ∧
      (listTo 8).balance.props = (listTo 8).props ∧
      spreadAll (listTo 8).balance.children 0 = spreadAll (listTo 8).children 0 := by
  have hstored : (listTo 8).Stored := stored_make _ _ _ _
  have horderly : OrderlyAll (listTo 8).children := by decide +kernel
  have hword : ∀ c ∈ spreadAll (listTo 8).children 0, c.1 ≤ maxWord := by decide +kernel
  exact ⟨⟨hstored, horderly, hword⟩, balance_spread hstored horderly hword⟩

/-- **Children that move**: the group is as far away as its position can tell, and the items in it
are further away still, so that opening it puts some of them at the start of the text. -/
theorem balance_moves :
    (listTo maxWord).Stored ∧ OrderlyAll (listTo maxWord).children ∧
      (spreadAll (listTo maxWord).children 0).map Prod.fst =
        [0, 1, 2, 3, 4, 5, 6, 7, 4294967295, 4294967296, 4294967297, 4294967298, 4294967299,
          4294967300, 4294967301, 4294967302, 4294967303] ∧
      (spreadAll (listTo maxWord).balance.children 0).map Prod.fst =
        [0, 1, 2, 3, 4, 5, 6, 7, 4294967295, 4294967296, 4294967297, 2, 3, 4, 5, 6, 7] :=
  ⟨stored_make _ _ _ _, by decide +kernel, by decide +kernel, by decide +kernel⟩

end Tree

end IncrementalLR
