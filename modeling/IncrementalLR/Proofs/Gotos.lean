/-
**Gotos are found where they were added.**

The gotos of an automaton are written term by term: the target states of a term each once, with the
states that they are reached from.  The number in front of a group says how many sources there are
and whether the group is the last of its term; terms without gotos share one empty group.  A look-up
goes through the groups of its term, and as every source has one target, it finds the target that
was added.  A loose look-up takes the last group unseen, which is right when the strict one succeeds
at all.

Main definitions:

* `sourcesOf` — the states from which a term leads to a target;
* `Grouped` — groups that hold each target once, with all its sources;
* `GotosFit` — the gotos that fit the format.

Main results:

* `grouped_gotoGroups` — the groups of a term are its targets with their sources;
* `Tables.gotoF_groups` — what the search through written groups finds;
* `Automaton.goto?_iff_mem` — **the gotos that are found are those that were added**.
-/

import IncrementalLR.Proofs.Layouts
import IncrementalLR.Table.Lookup

set_option relaxedAutoImplicit false
set_option autoImplicit false

namespace IncrementalLR

/-! ### Groups -/

/-- The sources of those of the gotos that lead to a target. -/
def sourcesIn (gotos : List (Nat × Nat × Nat)) (target : Nat) : List Nat :=
  (gotos.filter fun g => g.2.2 = target).map (·.1)

/-- The states from which a term leads to a target, in the order in which they were added. -/
def sourcesOf (gotos : List (Nat × Nat × Nat)) (term target : Nat) : List Nat :=
  sourcesIn (gotos.filter fun g => g.2.1 = term) target

theorem mem_sourcesOf {gotos : List (Nat × Nat × Nat)} {term target state : Nat} :
    state ∈ sourcesOf gotos term target ↔ (state, term, target) ∈ gotos := by
  rw [sourcesOf, sourcesIn]
  simp only [List.mem_map, List.mem_filter, decide_eq_true_eq]
  constructor
  · rintro ⟨⟨source, t, x⟩, ⟨⟨hmem, rfl⟩, rfl⟩, rfl⟩
    exact hmem
  · intro hmem
    exact ⟨_, ⟨⟨hmem, rfl⟩, rfl⟩, rfl⟩

theorem length_sourcesOf_le (gotos : List (Nat × Nat × Nat)) (term target : Nat) :
    (sourcesOf gotos term target).length ≤ gotos.length := by
  rw [sourcesOf, sourcesIn, List.length_map]
  exact Nat.le_trans (List.length_filter_le _ _) (List.length_filter_le _ _)

/-- The first source of a target gets a group of its own at the end. -/
theorem addSource_new (source : Nat) {target : Nat} {groups : List (Nat × List Nat)}
    (h : ∀ g ∈ groups, g.1 ≠ target) :
    addSource source target groups = groups ++ [(target, [source])] := by
  induction groups with
  | nil => rfl
  | cons g rest ih =>
      rw [addSource, if_neg (h g List.mem_cons_self),
        ih fun x hx => h x (List.mem_cons_of_mem _ hx)]
      rfl

/-- A further source is added to the group of its target. -/
theorem addSource_map (source : Nat) {target : Nat} {targets : List Nat} (hnodup : targets.Nodup)
    (hmem : target ∈ targets) (sources : Nat → List Nat) :
    addSource source target (targets.map fun x => (x, sources x)) =
      targets.map fun x => (x, sources x ++ if target = x then [source] else []) := by
  induction targets with
  | nil => cases hmem
  | cons x rest ih =>
      obtain ⟨hx, hrest⟩ := List.nodup_cons.1 hnodup
      rw [List.map_cons, List.map_cons, addSource]
      by_cases hxt : x = target
      · subst hxt
        rw [if_pos rfl, if_pos rfl]
        congr 1
        refine List.map_congr_left ?_
        intro y hy
        have hne : x ≠ y := by
          rintro rfl
          exact hx hy
        rw [if_neg hne, List.append_nil]
      · have hmem' : target ∈ rest := by
          rcases List.mem_cons.1 hmem with rfl | hmem
          · exact absurd rfl hxt
          · exact hmem
        rw [if_neg hxt, if_neg (Ne.symm hxt), List.append_nil, ih hrest hmem']

/-- The groups of gotos: each target once, with all its sources. -/
def Grouped (gotos : List (Nat × Nat × Nat)) (groups : List (Nat × List Nat)) : Prop :=
  ∃ targets : List Nat, targets.Nodup ∧ (∀ x, x ∈ targets ↔ ∃ g ∈ gotos, g.2.2 = x) ∧
    groups = targets.map fun x => (x, sourcesIn gotos x)

theorem sourcesIn_append (gotos : List (Nat × Nat × Nat)) (g : Nat × Nat × Nat) (x : Nat) :
    sourcesIn (gotos ++ [g]) x = sourcesIn gotos x ++ if g.2.2 = x then [g.1] else [] := by
  rw [sourcesIn, sourcesIn, List.filter_append, List.map_append]
  by_cases hx : g.2.2 = x <;> simp [hx]

/-- One more goto is put into its group. -/
theorem Grouped.addSource {gotos : List (Nat × Nat × Nat)} {groups : List (Nat × List Nat)}
    (h : Grouped gotos groups) (g : Nat × Nat × Nat) :
    Grouped (gotos ++ [g]) (addSource g.1 g.2.2 groups) := by
  obtain ⟨targets, hnodup, hmem, rfl⟩ := h
  by_cases hold : g.2.2 ∈ targets
  · refine ⟨targets, hnodup, ?_, ?_⟩
    · intro x
      rw [hmem x]
      constructor
      · rintro ⟨g', hg', hx⟩
        exact ⟨g', List.mem_append_left _ hg', hx⟩
      · rintro ⟨g', hg', hx⟩
        rcases List.mem_append.1 hg' with hg' | hg'
        · exact ⟨g', hg', hx⟩
        · obtain rfl := List.mem_singleton.1 hg'
          exact (hmem x).1 (hx ▸ hold)
    · rw [addSource_map _ hnodup hold]
      refine List.map_congr_left ?_
      intro x _
      rw [sourcesIn_append]
  · have hfresh : ∀ x ∈ targets, g.2.2 ≠ x := by
      intro x hx heq
      exact hold (heq ▸ hx)
    have hnone : sourcesIn gotos g.2.2 = [] := by
      rw [sourcesIn, List.map_eq_nil_iff, List.filter_eq_nil_iff]
      intro g' hg' hx
      exact hold ((hmem _).2 ⟨g', hg', of_decide_eq_true hx⟩)
    refine ⟨targets ++ [g.2.2], ?_, ?_, ?_⟩
    · rw [List.nodup_append]
      refine ⟨hnodup, List.pairwise_singleton _ _, ?_⟩
      intro x hx y hy
      rw [List.mem_singleton.1 hy]
      exact Ne.symm (hfresh x hx)
    · intro x
      simp only [List.mem_append, List.mem_singleton, hmem x, or_and_right, exists_or,
        exists_eq_left]
      exact or_congr_right eq_comm
    · rw [addSource_new _ (by
        intro g' hg'
        obtain ⟨x, hx, rfl⟩ := List.mem_map.1 hg'
        exact Ne.symm (hfresh x hx)), List.map_append]
      congr 1
      · refine List.map_congr_left ?_
        intro x hx
        rw [sourcesIn_append, if_neg (hfresh x hx), List.append_nil]
      · rw [List.map_singleton, sourcesIn_append, if_pos rfl, hnone, List.nil_append]

/-- All gotos are put into their groups, one after the other. -/
theorem Grouped.foldl {gotos : List (Nat × Nat × Nat)} {groups : List (Nat × List Nat)}
    (h : Grouped gotos groups) (more : List (Nat × Nat × Nat)) :
    Grouped (gotos ++ more)
      (more.foldl (fun groups g => IncrementalLR.addSource g.1 g.2.2 groups) groups) := by
  induction more generalizing gotos groups with
  | nil =>
      rw [List.append_nil]
      exact h
  | cons g rest ih =>
      rw [List.append_cons, List.foldl_cons]
      exact ih (h.addSource g)

/-- The groups of a term are its targets with their sources. -/
theorem grouped_gotoGroups (gotos : List (Nat × Nat × Nat)) (term : Nat) :
    Grouped (gotos.filter fun g => g.2.1 = term) (gotoGroups gotos term) := by
  have hempty : Grouped [] [] := ⟨[], List.nodup_nil, by simp, rfl⟩
  exact hempty.foldl (gotos.filter fun g => g.2.1 = term)

/-- A group is a target with its sources, of which there is at least one. -/
theorem mem_gotoGroups {gotos : List (Nat × Nat × Nat)} {term : Nat} {g : Nat × List Nat} :
    g ∈ gotoGroups gotos term ↔
      g.2 = sourcesOf gotos term g.1 ∧ ∃ state, (state, term, g.1) ∈ gotos := by
  obtain ⟨targets, -, hmem, hgroups⟩ := grouped_gotoGroups gotos term
  have htargets : ∀ x, x ∈ targets ↔ ∃ state, (state, term, x) ∈ gotos := by
    intro x
    rw [hmem x]
    simp only [List.mem_filter, decide_eq_true_eq]
    constructor
    · rintro ⟨⟨state, t, y⟩, ⟨hg, rfl⟩, rfl⟩
      exact ⟨state, hg⟩
    · rintro ⟨state, hg⟩
      exact ⟨_, ⟨hg, rfl⟩, rfl⟩
  rw [hgroups, List.mem_map, ← htargets]
  constructor
  · rintro ⟨x, hx, rfl⟩
    exact ⟨rfl, hx⟩
  · rintro ⟨hsources, hx⟩
    exact ⟨g.1, hx, Prod.ext rfl hsources.symm⟩

/-! ### Searching written groups -/

/-- A group whose numbers have 16 bits and whose number of sources has 15. -/
def GroupFits (g : Nat × List Nat) : Prop :=
  g.1 ≤ 65535 ∧ g.2.length < 32768 ∧ Narrow g.2

namespace Tables

/-- What the slots of a group say: its sources and whether it is the last one, its target, whether
a state is a source, and where the next group is. -/
theorem group_slots {t : Tables} {g : Nat × List Nat} {rest : List (Nat × List Nat)}
    (hg : GroupFits g) {pos : Nat} (h : HoldsAt t.gotos.toList (groupSlots (g :: rest)) pos) :
    t.gotos[pos]? = some (g.2.length * 2 + if rest.isEmpty then 1 else 0) ∧
      t.gotos[pos + 1]? = some g.1 ∧
      (∀ state, (t.gotos.extract (pos + 2) (pos + 2 + g.2.length)).contains state =
        g.2.contains state) ∧
      pos + 2 + g.2.length ≤ t.gotos.size ∧
      HoldsAt t.gotos.toList (groupSlots rest) (pos + 2 + g.2.length) := by
  obtain ⟨target, sources⟩ := g
  obtain ⟨htarget, hlength, hsources⟩ := hg
  dsimp only at htarget hlength hsources ⊢
  have hsame : sources.map (· % 65536) = sources := by
    conv => rhs; rw [← List.map_id sources]
    refine List.map_congr_left ?_
    intro s hs
    exact Nat.mod_eq_of_lt (Nat.lt_succ_of_le (hsources s hs))
  obtain ⟨post, hpost⟩ := h
  obtain ⟨htag, h₁⟩ := getElem?_of_drop hpost.symm
  obtain ⟨hnext, h₂⟩ := getElem?_of_drop h₁
  have h₂ : t.gotos.toList.drop (pos + 2) = sources ++ (groupSlots rest ++ post) := by
    rw [← List.append_assoc, ← hsame]
    exact h₂
  have hlen := congrArg List.length h₂
  have hsize : t.gotos.toList.length = t.gotos.size := Array.length_toList
  rw [List.length_drop, List.length_append, hsize] at hlen
  obtain ⟨hpos, -⟩ := Array.getElem?_eq_some_iff.1 hnext
  refine ⟨?_, ?_, ?_, ?_, post, ?_⟩
  · rw [htag, Nat.mod_eq_of_lt (by omega)]
  · rw [hnext, Nat.mod_eq_of_lt (by omega)]
  · intro state
    rw [← Array.contains_toList, Array.toList_extract, List.extract_eq_take_drop,
      Nat.add_sub_cancel_left, h₂, List.take_left']
    rfl
  · omega
  · rw [← List.drop_drop, h₂, List.drop_left' rfl]

/-- **What the search through written groups finds**: the first group with the state among its
sources, and a loose search that finds none takes the last group. -/
theorem gotoF_groups {t : Tables} (state : Nat) (loose : Bool) {groups : List (Nat × List Nat)}
    (hne : groups ≠ []) (hfits : ∀ g ∈ groups, GroupFits g) {fuel pos : Nat}
    (hfuel : groups.length ≤ fuel) (h : HoldsAt t.gotos.toList (groupSlots groups) pos) :
    t.gotoF state loose fuel pos =
      ((groups.find? fun g => g.2.contains state).or
        (if loose then groups.getLast? else none)).map (·.1) := by
  induction groups generalizing fuel pos with
  | nil => exact absurd rfl hne
  | cons g rest ih =>
      obtain ⟨fuel, rfl⟩ : ∃ n, fuel = n + 1 :=
        ⟨fuel - 1, by rw [List.length_cons] at hfuel; omega⟩
      obtain ⟨htag, htarget, hcontains, hsize, hnext⟩ :=
        group_slots (hfits g List.mem_cons_self) h
      have hcount : (g.2.length * 2 + if rest.isEmpty then 1 else 0) / 2 = g.2.length := by
        split <;> omega
      rw [gotoF, htag, htarget]
      dsimp only
      rw [hcount, hcontains state]
      have hfind : (g :: rest).find? (fun g => g.2.contains state) =
          if g.2.contains state then some g else rest.find? fun g => g.2.contains state := by
        rw [List.find?_cons]
        cases g.2.contains state <;> rfl
      rw [hfind]
      cases rest with
      | nil =>
          have hlast : (g.2.length * 2 + 1) % 2 = 1 := by omega
          simp only [List.isEmpty_nil, if_true, hlast]
          cases loose <;> cases g.2.contains state <;> rfl
      | cons g' rest =>
          have hmore : ¬ (g.2.length * 2 + 0) % 2 = 1 := by omega
          have hrest := ih (List.cons_ne_nil _ _)
            (fun x hx => hfits x (List.mem_cons_of_mem _ hx)) (Nat.le_of_succ_le_succ hfuel) hnext
          simp only [List.isEmpty_cons, Bool.false_eq_true, if_false, hmore, Nat.not_lt.2 hsize,
            hrest]
          rw [List.getLast?_cons_cons]
          cases g.2.contains state <;> rfl

end Tables

/-! ### Sections -/

@[simp] theorem length_sectionOffsets (empty offset : Nat) (sections : List (List Nat)) :
    (sectionOffsets empty offset sections).length = sections.length := by
  induction sections generalizing offset with
  | nil => rfl
  | cons s rest ih => rw [sectionOffsets, List.length_cons, List.length_cons, ih]

/-- The offset of a section is the length of the sections before it, from the first offset on. -/
theorem sectionOffsets_getElem? (empty offset : Nat) {sections : List (List Nat)} {i : Nat}
    {s : List Nat} (hs : sections[i]? = some s) :
    ∃ before after, sections.flatten = before ++ (s ++ after) ∧
      (sectionOffsets empty offset sections)[i]? =
        some (if s.isEmpty then empty else (offset + before.length) % 65536) := by
  induction sections generalizing offset i with
  | nil => simp at hs
  | cons first rest ih =>
      cases i with
      | zero =>
          obtain rfl := Option.some.inj hs
          exact ⟨[], rest.flatten, rfl, rfl⟩
      | succ i =>
          obtain ⟨before, after, hflatten, hoffset⟩ := ih (offset + first.length) hs
          refine ⟨first ++ before, after, ?_, ?_⟩
          · rw [List.flatten_cons, hflatten, List.append_assoc]
          · rw [List.length_append, ← Nat.add_assoc]
            exact hoffset

/-- The number of terms up to the last one that has gotos. -/
def gotoTerms (gotos : List (Nat × Nat × Nat)) : Nat :=
  (gotos.map fun g => g.2.1 + 1).foldl max 0

theorem le_foldl_max (l : List Nat) (m : Nat) :
    m ≤ l.foldl max m ∧ ∀ n ∈ l, n ≤ l.foldl max m := by
  induction l generalizing m with
  | nil =>
      refine ⟨Nat.le_refl _, ?_⟩
      intro n hn
      cases hn
  | cons k rest ih =>
      obtain ⟨hm, hrest⟩ := ih (max m k)
      rw [List.foldl_cons]
      refine ⟨by omega, ?_⟩
      intro n hn
      rcases List.mem_cons.1 hn with rfl | hn
      · omega
      · exact hrest n hn

theorem lt_gotoTerms {gotos : List (Nat × Nat × Nat)} {state term target : Nat}
    (h : (state, term, target) ∈ gotos) : term < gotoTerms gotos :=
  (le_foldl_max _ 0).2 (term + 1) (List.mem_map.2 ⟨_, h, rfl⟩)

/-- The groups that a look-up of a term goes through: one without sources if the term has none. -/
def writtenGroups (gotos : List (Nat × Nat × Nat)) (term : Nat) : List (Nat × List Nat) :=
  if gotoGroups gotos term = [] then [(listEnd, [])] else gotoGroups gotos term

theorem writtenGroups_ne_nil (gotos : List (Nat × Nat × Nat)) (term : Nat) :
    writtenGroups gotos term ≠ [] := by
  rw [writtenGroups]
  split
  · exact List.cons_ne_nil _ _
  · assumption

/-- The offset of a term leads to its groups. -/
theorem holdsAt_writtenGroups {gotos : List (Nat × Nat × Nat)}
    (hslots : (gotoSlots gotos).length < 65536) {term : Nat} (hterm : term < gotoTerms gotos) :
    ∃ pos, (gotoSlots gotos)[term + 1]? = some pos ∧
      HoldsAt (gotoSlots gotos) (groupSlots (writtenGroups gotos term)) pos := by
  let sections := (List.range (gotoTerms gotos)).map fun t => groupSlots (gotoGroups gotos t)
  let offsets := sectionOffsets ((gotoTerms gotos + 1) % 65536) (gotoTerms gotos + 3) sections
  have hall : gotoSlots gotos = gotoTerms gotos % 65536 ::
      (offsets ++ (1 :: listEnd :: sections.flatten)) := rfl
  have hcount : offsets.length = gotoTerms gotos := by
    rw [length_sectionOffsets, List.length_map, List.length_range]
  have hsection : sections[term]? = some (groupSlots (gotoGroups gotos term)) := by
    rw [List.getElem?_map, List.getElem?_range hterm]
    rfl
  obtain ⟨before, after, hflatten, hoffset⟩ :=
    sectionOffsets_getElem? ((gotoTerms gotos + 1) % 65536) (gotoTerms gotos + 3) hsection
  have hlen := congrArg List.length hall
  rw [List.length_cons, List.length_append, hcount, List.length_cons, List.length_cons, hflatten,
    List.length_append] at hlen
  -- What stands behind the offsets.
  have hbehind : ∀ k, (gotoSlots gotos).drop (gotoTerms gotos + 1 + k) =
      (1 :: listEnd :: sections.flatten).drop k := by
    intro k
    have hsum : gotoTerms gotos + 1 + k = (gotoTerms gotos + k) + 1 := by omega
    rw [hall, hsum, List.drop_succ_cons, ← hcount, ← List.drop_drop, List.drop_left' rfl]
  have hslot : (gotoSlots gotos)[term + 1]? = offsets[term]? := by
    rw [hall, List.getElem?_cons_succ, List.getElem?_append_left (by omega)]
  refine ⟨_, hslot.trans hoffset, ?_⟩
  rw [writtenGroups]
  cases hgroups : gotoGroups gotos term with
  | nil =>
      rw [if_pos rfl, groupSlots, List.isEmpty_nil, if_pos rfl, Nat.mod_eq_of_lt (by omega),
        HoldsAt, ← Nat.add_zero (gotoTerms gotos + 1), hbehind 0]
      exact ⟨sections.flatten, rfl⟩
  | cons g rest =>
      have hsome : (groupSlots (g :: rest)).isEmpty = false := rfl
      have hsum : gotoTerms gotos + 3 + before.length =
          gotoTerms gotos + 1 + (2 + before.length) := by omega
      rw [if_neg (List.cons_ne_nil _ _), hsome, if_neg Bool.false_ne_true,
        Nat.mod_eq_of_lt (by omega), HoldsAt, hsum, hbehind, ← List.drop_drop, hflatten, hgroups]
      exact ⟨after, (List.drop_left' rfl).symm⟩

/-! ### The look-up -/

/-- Gotos that fit the format: one target for each source and term, numbers of 16 bits, groups with
numbers of sources of 15 bits, and offsets of 16 bits. -/
structure GotosFit (gotos : List (Nat × Nat × Nat)) : Prop where
  single : ∀ state term x y, (state, term, x) ∈ gotos → (state, term, y) ∈ gotos → x = y
  numbers : ∀ g ∈ gotos, g.1 ≤ 65535 ∧ g.2.1 < 65535 ∧ g.2.2 ≤ 65535
  sources : ∀ term target, (sourcesOf gotos term target).length < 32768
  slots : (gotoSlots gotos).length < 65536

theorem GotosFit.groupFits {gotos : List (Nat × Nat × Nat)} (h : GotosFit gotos) (term : Nat) :
    ∀ g ∈ writtenGroups gotos term, GroupFits g := by
  intro g hg
  rw [writtenGroups] at hg
  split at hg
  · obtain rfl := List.mem_singleton.1 hg
    exact ⟨Nat.le_refl _, by decide, .nil⟩
  · obtain ⟨hsources, state, hmem⟩ := mem_gotoGroups.1 hg
    refine ⟨(h.numbers _ hmem).2.2, hsources ▸ h.sources term g.1, ?_⟩
    intro s hs
    exact (h.numbers _ (mem_sourcesOf.1 (hsources ▸ hs))).1

/-- The first group with a source is that of the goto that was added for it. -/
theorem GotosFit.find?_writtenGroups {gotos : List (Nat × Nat × Nat)} (h : GotosFit gotos)
    {state term x : Nat} :
    ((writtenGroups gotos term).find? fun g => g.2.contains state).map (·.1) = some x ↔
      (state, term, x) ∈ gotos := by
  have hadded : ∀ g ∈ writtenGroups gotos term, g.2.contains state = true →
      (state, term, g.1) ∈ gotos := by
    intro g hg hstate
    rw [List.contains_iff_mem] at hstate
    rw [writtenGroups] at hg
    split at hg
    · obtain rfl := List.mem_singleton.1 hg
      cases hstate
    · exact mem_sourcesOf.1 ((mem_gotoGroups.1 hg).1 ▸ hstate)
  have hfound : ∀ g, ((writtenGroups gotos term).find? fun g => g.2.contains state) = some g →
      (state, term, g.1) ∈ gotos := by
    intro g hfind
    have hstate := List.find?_some (p := fun g : Nat × List Nat => g.2.contains state) hfind
    exact hadded g (List.mem_of_find?_eq_some hfind) hstate
  rw [Option.map_eq_some_iff]
  constructor
  · rintro ⟨g, hfind, rfl⟩
    exact hfound g hfind
  · intro hmem
    have hgroup : (x, sourcesOf gotos term x) ∈ gotoGroups gotos term :=
      mem_gotoGroups.2 ⟨rfl, state, hmem⟩
    have hwritten : (x, sourcesOf gotos term x) ∈ writtenGroups gotos term := by
      rw [writtenGroups, if_neg (List.ne_nil_of_mem hgroup)]
      exact hgroup
    have hstate : (sourcesOf gotos term x).contains state = true :=
      List.contains_iff_mem.2 (mem_sourcesOf.2 hmem)
    cases hfind : (writtenGroups gotos term).find? fun g => g.2.contains state with
    | none => exact absurd hstate (List.find?_eq_none.1 hfind _ hwritten)
    | some g =>
        exact ⟨g, rfl, h.single state term _ _ (hfound g hfind) hmem⟩

theorem length_le_groupSlots (groups : List (Nat × List Nat)) :
    groups.length ≤ (groupSlots groups).length := by
  induction groups with
  | nil => exact Nat.le_refl _
  | cons g rest ih =>
      rw [groupSlots, List.length_cons, List.length_cons, List.length_cons, List.length_append]
      omega

/-- A look-up goes through the groups of its term, if there are gotos for it or for a later one. -/
theorem Tables.goto?_eq {t : Tables} {gotos : List (Nat × Nat × Nat)}
    (ht : t.gotos.toList = gotoSlots gotos) (h : GotosFit gotos) (state term : Nat) (loose : Bool) :
    t.goto? state term loose =
      if term < gotoTerms gotos then
        (((writtenGroups gotos term).find? fun g => g.2.contains state).or
          (if loose then (writtenGroups gotos term).getLast? else none)).map (·.1)
      else none := by
  have hterms : t.gotos[0]? = some (gotoTerms gotos) := by
    have hlen := h.slots
    rw [gotoSlots, List.length_cons, List.length_append, length_sectionOffsets, List.length_map,
      List.length_range] at hlen
    have hterms : gotoTerms gotos < 65536 := by
      rw [gotoTerms]
      omega
    rw [← Array.getElem?_toList, ht]
    exact congrArg some (Nat.mod_eq_of_lt hterms)
  rw [goto?, hterms]
  dsimp only
  split
  · rename_i hterm
    obtain ⟨pos, hpos, hholds⟩ := holdsAt_writtenGroups h.slots hterm
    rw [← ht] at hpos hholds
    rw [← Array.getElem?_toList, hpos, Option.bind_some]
    refine gotoF_groups state loose (writtenGroups_ne_nil gotos term) (h.groupFits term) ?_ hholds
    have hlen := hholds.length_le
    have hgroups := length_le_groupSlots (writtenGroups gotos term)
    have hsize : t.gotos.toList.length = t.gotos.size := Array.length_toList
    rw [List.length_drop, hsize] at hlen
    omega
  · rfl

/-- **The gotos that are found are those that were added.**  The goto table of an automaton whose
gotos fit the format can be read, and a parser on it finds a goto exactly if it was added; a loose
look-up finds it as well. -/
theorem Automaton.goto?_iff_mem {a : Automaton} (h : GotosFit a.gotos) :
    (∃ slots, a.layOut.gotos.narrowValues = .ok slots) ∧
      ∀ {epoch : Nat} {w : WrittenParser} {p : Parser}, w.tables = a.layOut →
        Parser.ofWritten epoch w = .ok p → ∀ state term x,
          (p.tables.goto? state term false = some x ↔ (state, term, x) ∈ a.gotos) ∧
          ((state, term, x) ∈ a.gotos → p.tables.goto? state term true = some x) := by
  refine ⟨⟨_, (narrow_gotoSlots a.gotos).narrowValues_raw⟩, ?_⟩
  intro epoch w p htables hp state term x
  have hgotos := (Parser.laidOut_of_ofWritten htables hp).gotos_eq
  rw [Tables.goto?_eq hgotos h, Tables.goto?_eq hgotos h]
  refine ⟨?_, ?_⟩
  · by_cases hterm : term < gotoTerms a.gotos
    · rw [if_pos hterm, if_neg Bool.false_ne_true, Option.or_none]
      exact h.find?_writtenGroups
    · rw [if_neg hterm]
      constructor
      · intro hx
        cases hx
      · intro hmem
        exact absurd (lt_gotoTerms hmem) hterm
  · intro hmem
    obtain ⟨g, hfind, hg⟩ := Option.map_eq_some_iff.1 (h.find?_writtenGroups.2 hmem)
    rw [if_pos (lt_gotoTerms hmem), hfind, Option.some_or, Option.map_some, hg]

/-- Gotos for two terms, one of them with two targets; two terms before and between have none. -/
def Automaton.jumping : Automaton where
  gotos := [(0, 2, 1), (0, 4, 3), (1, 4, 5), (2, 4, 3)]

/-- A parser for them. -/
def WrittenParser.jumping : WrittenParser where
  tables := Automaton.jumping.layOut
  nodeNames := "⚠ Top"
  topRules := .ofList [("Top", (0, 1))]

/-- The hypotheses hold of gotos with several groups. -/
theorem Automaton.goto?_iff_mem_jumping :
    GotosFit Automaton.jumping.gotos ∧ ∃ p, Parser.ofWritten 0 .jumping = .ok p ∧
      p.tables.goto? 2 4 false = some 3 ∧ p.tables.goto? 1 4 true = some 5 ∧
      p.tables.goto? 1 2 false ≠ some 1 := by
  have hfits : GotosFit Automaton.jumping.gotos := by
    refine ⟨?_, by decide, ?_, by decide⟩
    · intro state term x y hx hy
      simp [jumping] at hx hy
      omega
    · intro term target
      exact Nat.lt_of_le_of_lt (length_sourcesOf_le _ _ _) (by decide)
  obtain ⟨p, hp⟩ : ∃ p, Parser.ofWritten 0 .jumping = .ok p := ⟨_, rfl⟩
  have hgoto := (Automaton.goto?_iff_mem hfits).2 rfl hp
  exact ⟨hfits, p, hp, (hgoto 2 4 3).1.2 (by decide), (hgoto 1 4 5).2 (by decide),
    fun h => absurd ((hgoto 1 2 1).1.1 h) (by decide)⟩

end IncrementalLR
