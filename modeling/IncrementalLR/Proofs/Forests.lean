/-
**Building a tree from a forest.**

A forest of nodes is written as records in postfix order and built into a tree.  What is seen of the
tree is the forest itself, without the nodes of repetitions, whatever the largest length of a buffer
is.  Positions in a tree have 32 bits: a node that lies too far from the start of the tree comes out
at another place.

Main definitions:

* `Outline.InOrder`, `Outline.depthAll`, `Outline.labelsAll` — what is asked of a forest;
* `Outline.slots` — a forest as a flat sequence of slots;
* `Outline.unfoldAll` — a forest without the nodes of repetitions.

Main results:

* `Outline.shows_postorder` — what the records of a forest show;
* `Outline.recordsOk_slots` — they pass the check;
* `Tree.build_forest` — **a tree that is built from a forest shows the forest**;
* `Tree.build_far` — a node that comes out at another place.
-/

import IncrementalLR.Proofs.Unfolding

set_option relaxedAutoImplicit false
set_option autoImplicit false

namespace IncrementalLR

namespace Outline

/-! ### Forests -/

/-- Nodes between two positions, in order, without overlap, and each around its children. -/
def InOrder {α : Type} : Nat → Nat → List (Outline α) → Prop
  | lo, hi, [] => lo ≤ hi
  | lo, hi, .node _ start stop cs :: rest =>
      lo ≤ start ∧ InOrder start stop cs ∧ InOrder stop hi rest

/-- The nesting depth. -/
def depthAll {α : Type} : List (Outline α) → Nat
  | [] => 0
  | .node _ _ _ cs :: rest => max (depthAll cs + 1) (depthAll rest)

/-- The labels of all nodes. -/
def labelsAll {α : Type} : List (Outline α) → List α
  | [] => []
  | .node label _ _ cs :: rest => label :: (labelsAll cs ++ labelsAll rest)

/-- The nodes of a forest with their types, at positions counted from `start`.  Nodes with ids from
`repeatFrom` on give way to what is below them. -/
def unfoldAll (set : NodeSet) (start : Nat) (repeatFrom : Int) :
    List (Outline Nat) → List (Outline NodeType)
  | [] => []
  | .node id a b cs :: rest =>
      let inner := unfoldAll set start repeatFrom cs
      (if repeatFrom ≤ id then inner
        else [.node (Buffer.shownType set id) (a - start) (b - start) inner]) ++
        unfoldAll set start repeatFrom rest

/-- A forest as a flat sequence of slots in postfix order. -/
def slots (os : List (Outline Nat)) : List Int :=
  (postorderAll os).flatMap fun r => [r.id, r.start, r.stop, r.size]

theorem InOrder.le {α : Type} {lo hi : Nat} {os : List (Outline α)} (h : InOrder lo hi os) :
    lo ≤ hi := by
  fun_induction InOrder lo hi os with
  | case1 => exact h
  | case2 lo hi _ start stop cs rest ihInner ih =>
      obtain ⟨hlo, hcs, hrest⟩ := h
      have := ihInner hcs
      have := ih hrest
      omega

theorem countAll_unfoldAll_le (set : NodeSet) (start : Nat) (repeatFrom : Int)
    (os : List (Outline Nat)) :
    countAll (unfoldAll set start repeatFrom os) ≤ (postorderAll os).length := by
  fun_induction unfoldAll set start repeatFrom os with
  | case1 => simp [countAll]
  | case2 id a b cs rest inner ihInner ih =>
      rw [countAll_append]
      simp only [postorderAll_cons, postorder, List.length_append, List.length_singleton, inner]
      split
      · omega
      · simp only [countAll, count]
        omega

/-! ### Records of a forest -/

/-- The records of a forest, newest first: those of the last node come first. -/
theorem reverse_postorderAll_cons (id start stop : Nat) (cs rest : List (Outline Nat)) :
    (postorderAll (.node id start stop cs :: rest)).reverse =
      (postorderAll rest).reverse ++
        (⟨id, start, stop, 4 * ((postorderAll cs).length + 1)⟩ : Record) ::
          (postorderAll cs).reverse := by
  simp [postorder]

/-- **What the records of a forest show.**  How deep the forest is counts, and the level at which it
stands. -/
theorem shows_postorder {d : BuildPlan} (hd : d.Regular) (os : List (Outline Nat)) {inRepeat : Int}
    {depth lo hi : Nat} (horder : InOrder lo hi os)
    (hdepth : depth + depthAll os ≤ cutoffDepth + 1) (hids : ∀ id ∈ labelsAll os, id < d.set.size) :
    d.Shows inRepeat depth lo hi (postorderAll os).reverse
      (unfoldAll d.set d.start d.repeatFrom os) := by
  fun_induction InOrder lo hi os generalizing inRepeat depth with
  | case1 lo hi =>
      rw [unfoldAll]
      exact .nil (Int.ofNat_le.2 horder)
  | case2 lo hi id start stop cs rest ihInner ih =>
      obtain ⟨hlo, hcs, hrest⟩ := horder
      simp only [labelsAll, List.forall_mem_cons, List.forall_mem_append] at hids
      obtain ⟨hid, hidsInner, hidsRest⟩ := hids
      simp only [depthAll] at hdepth
      obtain ⟨ty, hty⟩ : ∃ ty, d.set.get? id = some ty :=
        ⟨_, Array.getElem?_eq_getElem hid⟩
      have hshown : Buffer.shownType d.set id = ty := by simp [Buffer.shownType, hty]
      have hnode : d.Shows inRepeat depth lo stop
          ((⟨id, start, stop, 4 * ((postorderAll cs).length + 1)⟩ : Record) ::
            ((postorderAll cs).reverse ++ []))
          ([] ++ d.nodeShown ty ⟨id, start, stop, 4 * ((postorderAll cs).length + 1)⟩
            (unfoldAll d.set d.start d.repeatFrom cs)) := by
        refine .node (Int.natCast_nonneg id) hty (by simp) (Int.le_refl _) (by omega)
          (ihInner hcs ?_ hidsInner) (.nil (Int.ofNat_le.2 hlo))
        split <;> omega
      have hsplice : d.nodeShown ty ⟨id, start, stop, 4 * ((postorderAll cs).length + 1)⟩
          (unfoldAll d.set d.start d.repeatFrom cs) =
          if d.repeatFrom ≤ id then unfoldAll d.set d.start d.repeatFrom cs
          else [.node (Buffer.shownType d.set id) (start - d.start) (stop - d.start)
            (unfoldAll d.set d.start d.repeatFrom cs)] := by
        have hplace : ∀ pos : Nat, d.place pos = pos - d.start := by
          intro pos
          unfold BuildPlan.place
          omega
        simp only [BuildPlan.nodeShown, hd.anonymous_iff hty, hshown, hplace]
      rw [List.append_nil, List.nil_append, hsplice] at hnode
      rw [reverse_postorderAll_cons, unfoldAll]
      exact (ih hrest (by omega) hidsRest).append hnode

/-- **The records of a forest form a forest**, whatever they are built into. -/
theorem forest_postorder (d : BuildPlan) (os : List (Outline Nat)) {lo hi : Nat}
    (horder : InOrder lo hi os) : d.Forest (depthAll os) lo hi (postorderAll os).reverse := by
  fun_induction InOrder lo hi os with
  | case1 lo hi => exact .nil (Int.ofNat_le.2 horder)
  | case2 lo hi id start stop cs rest ihInner ih =>
      obtain ⟨hlo, hcs, hrest⟩ := horder
      have hnode : d.Forest (depthAll cs + 1) lo stop
          ((⟨id, start, stop, 4 * ((postorderAll cs).length + 1)⟩ : Record) ::
            ((postorderAll cs).reverse ++ [])) :=
        .node (Int.natCast_nonneg id) (by simp) (Int.le_refl _) (ihInner hcs)
          (.nil (Int.ofNat_le.2 hlo))
      rw [List.append_nil] at hnode
      rw [reverse_postorderAll_cons, depthAll]
      exact ((ih hrest).deepen (by omega)).append (hnode.deepen (by omega))

/-! ### Checking -/

/-- An enclosing node whose records are used up no longer matters. -/
theorem checkRecords_of_closed {pos : Nat} {e : Enclosing} (h : pos ≤ e.first)
    (outer : List Enclosing) (rs : List Record) :
    checkRecords 0 pos (e :: outer) rs = checkRecords 0 pos outer rs := by
  cases rs with
  | nil => rfl
  | cons r rs => simp only [checkRecords, List.dropWhile_cons, h, decide_true, if_true]

/-- A node passes the check where the innermost enclosing node is around it, and then encloses the
records below it. -/
theorem checkRecords_node {outer : List Enclosing} {id start stop count rest : Nat}
    (hopen : ∀ e ∈ outer, e.first ≤ 4 * rest)
    (haround : ∀ e ∈ outer.head?, e.start ≤ start ∧ stop ≤ e.stop) (hle : start ≤ stop)
    (rs : List Record) :
    checkRecords 0 (4 * (count + rest + 1)) outer (⟨id, start, stop, 4 * (count + 1)⟩ :: rs) =
      checkRecords 0 (4 * (count + rest)) (⟨4 * rest, start, stop⟩ :: outer) rs := by
  have hdrop : outer.dropWhile (fun e => decide (4 * (count + rest + 1) ≤ e.first)) = outer := by
    cases outer with
    | nil => rfl
    | cons e outer =>
        have hfirst := hopen e (by simp)
        rw [List.dropWhile_cons_of_neg]
        simp only [decide_eq_true_eq]
        omega
  have hcontains : Enclosing.contains outer ⟨id, start, stop, 4 * (count + 1)⟩ = true := by
    cases outer with
    | nil => rfl
    | cons e outer =>
        have hin := haround e (by simp)
        simp only [Enclosing.contains, Bool.and_eq_true, decide_eq_true_eq]
        omega
  have hfirst : 4 * (count + rest + 1) - (4 * ((count : Int) + 1)).toNat = 4 * rest := by omega
  rw [checkRecords, if_neg (by omega)]
  simp only [hdrop, hcontains]
  rw [if_neg (by omega), if_neg (by
    simp only [Bool.or_eq_true, decide_eq_true_eq, Bool.not_true, Bool.false_eq_true, or_false]
    omega), hfirst]
  congr 1

/-- The records of a forest pass the check where the innermost enclosing node is around it. -/
theorem checkRecords_forest (os : List (Outline Nat)) {lo hi : Nat} (horder : InOrder lo hi os)
    (outer : List Enclosing) (below : List Record) (hopen : ∀ e ∈ outer, e.first ≤ 4 * below.length)
    (haround : ∀ e ∈ outer.head?, e.start ≤ lo ∧ hi ≤ e.stop) :
    checkRecords 0 (4 * ((postorderAll os).length + below.length)) outer
        ((postorderAll os).reverse ++ below) = checkRecords 0 (4 * below.length) outer below := by
  fun_induction InOrder lo hi os generalizing outer below with
  | case1 lo hi => simp
  | case2 lo hi id start stop cs rest ihInner ih =>
      obtain ⟨hlo, hcs, hrest⟩ := horder
      have hle := hcs.le
      have hend := hrest.le
      let r : Record := ⟨id, start, stop, 4 * ((postorderAll cs).length + 1)⟩
      have hlength : (postorderAll (.node id start stop cs :: rest)).length + below.length =
          (postorderAll rest).length + (r :: ((postorderAll cs).reverse ++ below)).length := by
        simp [postorder]
        omega
      have hopen' : ∀ e ∈ outer,
          e.first ≤ 4 * (r :: ((postorderAll cs).reverse ++ below)).length := by
        intro e he
        have hfirst := hopen e he
        simp only [List.length_cons, List.length_append]
        omega
      have hnested : ∀ e ∈ (⟨4 * below.length, start, stop⟩ : Enclosing) :: outer,
          e.first ≤ 4 * below.length := by
        rw [List.forall_mem_cons]
        exact ⟨Nat.le_refl _, hopen⟩
      calc checkRecords 0 (4 * ((postorderAll (.node id start stop cs :: rest)).length +
              below.length)) outer
            ((postorderAll (.node id start stop cs :: rest)).reverse ++ below)
          = checkRecords 0 (4 * ((postorderAll rest).length +
              (r :: ((postorderAll cs).reverse ++ below)).length)) outer
              ((postorderAll rest).reverse ++ r :: ((postorderAll cs).reverse ++ below)) := by
            rw [hlength, reverse_postorderAll_cons, List.append_assoc, List.cons_append]
        _ = checkRecords 0 (4 * ((postorderAll cs).length + below.length + 1)) outer
              (r :: ((postorderAll cs).reverse ++ below)) := by
            -- the nodes behind come first
            rw [ih hrest outer _ hopen' fun e he => by have := haround e he; omega]
            simp only [List.length_cons, List.length_append, List.length_reverse]
        _ = checkRecords 0 (4 * ((postorderAll cs).length + below.length))
              (⟨4 * below.length, start, stop⟩ :: outer) ((postorderAll cs).reverse ++ below) :=
            checkRecords_node hopen (fun e he => by have := haround e he; omega) hle _
        _ = checkRecords 0 (4 * below.length) (⟨4 * below.length, start, stop⟩ :: outer) below :=
            ihInner hcs _ below hnested (by simp)
        _ = checkRecords 0 (4 * below.length) outer below :=
            checkRecords_of_closed (e := ⟨4 * below.length, start, stop⟩) (Nat.le_refl _) outer
              below

/-! ### Slots of a forest -/

theorem quads_flatMap (rs : List Record) :
    Reader.quads (rs.flatMap fun r => [r.size, r.stop, r.start, r.id]) = rs := by
  induction rs with
  | nil => rfl
  | cons r rs ih => simp [Reader.quads, ih]

theorem reverse_slots (os : List (Outline Nat)) :
    (slots os).reverse = (postorderAll os).reverse.flatMap fun r =>
      [r.size, r.stop, r.start, r.id] := by
  rw [slots, List.reverse_flatMap]
  rfl

theorem length_slots (os : List (Outline Nat)) :
    (slots os).length = 4 * (postorderAll os).length := by
  simp [slots, List.length_flatMap, List.map_const', Nat.mul_comm]

/-- A reader of the slots has the records to read. -/
theorem ofSlots_holds (os : List (Outline Nat)) :
    (Reader.ofSlots (slots os)).Holds (postorderAll os).reverse := by
  have hquads : (Reader.ofSlots (slots os)).current = (postorderAll os).reverse := by
    rw [Reader.ofSlots, reverse_slots, quads_flatMap]
  refine ⟨?_, ?_, fun _ => rfl, by simp [Reader.ofSlots]⟩
  · rw [Reader.records, hquads]
    simp [Reader.ofSlots]
  · rw [Reader.ofSlots, length_slots, List.length_reverse]

/-- **The slots of a forest pass the check.** -/
theorem recordsOk_slots {lo hi : Nat} {os : List (Outline Nat)} (horder : InOrder lo hi os) :
    recordsOk (slots os) 0 = .ok () := by
  have hlength := length_slots os
  have hcheck := checkRecords_forest os horder [] [] (by simp) (by simp)
  have hquads : (Reader.ofSlots (slots os)).current = (postorderAll os).reverse := by
    rw [Reader.ofSlots, reverse_slots, quads_flatMap]
  rw [List.append_nil, List.length_nil, Nat.add_zero] at hcheck
  rw [recordsOk, if_neg (by simp; omega), hlength, hquads, hcheck]
  rfl

end Outline

/-- **A tree that is built from a forest shows the forest**, without its nodes of repetitions,
whatever the largest length of a buffer is. -/
theorem Tree.build_forest {d : BuildPlan} {os : List (Outline Nat)} {hi : Nat} {ty : NodeType}
    (hd : d.Regular) (htop : d.set.get? d.top = some ty) (horder : Outline.InOrder d.start hi os)
    (hword : hi ≤ d.start + maxWord) (hdepth : Outline.depthAll os ≤ 2500)
    (hcount : (Outline.postorderAll os).length ≤ 16383)
    (hids : ∀ id ∈ Outline.labelsAll os, id < d.set.size) :
    ∃ t, Tree.build d (Outline.slots os) = .ok t ∧
      Node.Walks t.top.firstChild (Outline.unfoldAll d.set d.start d.repeatFrom os) := by
  have hroomy : Outline.Roomy d.maxBuffer (Outline.unfoldAll d.set d.start d.repeatFrom os) :=
    Or.inl (Nat.le_trans (Outline.countAll_unfoldAll_le ..) hcount)
  obtain ⟨cs, hbuild, hfits, hdrawn, hvisible⟩ := Tree.buildFrom_shows hd htop
    (Outline.ofSlots_holds os) hword
    (Outline.shows_postorder hd os horder (by unfold cutoffDepth; omega) hids) hroomy
  refine ⟨.make ty cs (d.length.getD (rootLength cs)) [], ?_, ?_⟩
  · rw [Tree.build, hd.bufferStart, Outline.recordsOk_slots horder]
    exact hbuild
  · rw [← hvisible]
    exact Node.walks_visible (hfits.formed.wellFormed hdrawn)

/-- A plan for two named types and a repetition, with small buffers. -/
def listPlan : BuildPlan where
  set := ⟨#[{ epoch := 1, id := 0, name := "List" }, { epoch := 1, id := 1, name := "Item" },
    { epoch := 1, id := 2, name := "" }]⟩
  top := 0
  maxBuffer := 4
  start := 10
  minRepeat := some 2

theorem listPlan_regular : listPlan.Regular where
  bufferStart := rfl
  maxBuffer_le := by decide
  size_le := by decide
  id_eq := by
    intro id ty h
    match id, h with
    | 0, h => exact Option.some.inj h ▸ rfl
    | 1, h => exact Option.some.inj h ▸ rfl
    | 2, h => exact Option.some.inj h ▸ rfl
  anonymous_iff := by
    intro id ty h
    match id, h with
    | 0, h => exact Option.some.inj h ▸ by decide
    | 1, h => exact Option.some.inj h ▸ by decide
    | 2, h => exact Option.some.inj h ▸ by decide

/-- Five items in nested nodes of a repetition, the last of which has an item inside. -/
def listForest : List (Outline Nat) :=
  [.node 2 10 32
    [.node 2 10 19
      [.node 2 10 15 [.node 1 10 12 [], .node 1 12 15 []], .node 2 15 19 [.node 1 15 19 []]],
    .node 2 19 32 [.node 1 19 22 [], .node 1 22 32 [.node 1 23 24 []]]]]

/-- The tree of the items shows them one after the other, although they are in leaves and buffers
there. -/
theorem Tree.build_forest_list :
    ∃ t, Tree.build listPlan (Outline.slots listForest) = .ok t ∧
      Node.Walks t.top.firstChild
        (Outline.unfoldAll listPlan.set listPlan.start listPlan.repeatFrom listForest) := by
  have horder : Outline.InOrder listPlan.start 32 listForest := by
    simp [listForest, Outline.InOrder, listPlan]
  refine Tree.build_forest listPlan_regular rfl horder (by decide) ?_ (by decide +kernel) ?_
  · simp [listForest, Outline.depthAll]
  · simp [listForest, Outline.labelsAll, listPlan, NodeSet.size]

/-- A single item, 2³² bytes behind the start of the tree. -/
def farForest : List (Outline Nat) := [.node 1 4294967306 4294967307 []]

/-- **A node that lies too far from the start comes out at another place**, although all else that
is asked of a forest holds. -/
theorem Tree.build_far :
    listPlan.Regular ∧ (listPlan.set.get? listPlan.top).isSome ∧
      Outline.InOrder listPlan.start 4294967307 farForest ∧ Outline.depthAll farForest ≤ 2500 ∧
      (Outline.postorderAll farForest).length ≤ 16383 ∧
      (∀ id ∈ Outline.labelsAll farForest, id < listPlan.set.size) ∧
      ¬ ∃ t, Tree.build listPlan (Outline.slots farForest) = .ok t ∧
        Node.Walks t.top.firstChild
          (Outline.unfoldAll listPlan.set listPlan.start listPlan.repeatFrom farForest) := by
  refine ⟨listPlan_regular, rfl, ?_, ?_, by decide +kernel, ?_, ?_⟩
  · simp [farForest, Outline.InOrder, listPlan]
  · simp [farForest, Outline.depthAll]
  · simp [farForest, Outline.labelsAll, listPlan, NodeSet.size]
  · rintro ⟨t, hbuild, hwalks⟩
    have heval : (Tree.build listPlan (Outline.slots farForest)).toOption.any
        (fun t => t.top.firstChild.any fun n => n.start = 0) = true := by decide +kernel
    have hshown : Outline.unfoldAll listPlan.set listPlan.start listPlan.repeatFrom farForest =
        [.node (Buffer.shownType listPlan.set 1) 4294967296 4294967297 []] := by
      simp [farForest, Outline.unfoldAll, listPlan, BuildPlan.repeatFrom]
    rw [hbuild] at heval
    obtain ⟨u, hu, hfirst⟩ := (Option.any_eq_true _ _).1 heval
    obtain rfl : t = u := Option.some.inj hu
    obtain ⟨n, hn, hstart⟩ := (Option.any_eq_true _ _).1 hfirst
    rw [hshown, hn] at hwalks
    -- the walk starts at another place
    obtain ⟨cs, hnode⟩ := hwalks.head_eq
    injection hnode with _ hplace
    rw [of_decide_eq_true hstart] at hplace
    cases hplace

end IncrementalLR
