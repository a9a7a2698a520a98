/-
**Tables hold what was laid out.**

Laying an automaton out appends action lists to one sequence of slots, equal lists only once, and
notes in the six slots of each state where its lists stand.  Nothing that was appended is changed
later, so the lists of every state stand in the finished table at the noted offsets.  All slots are
numbers of 16 bits, so a table is read back as it was written.

Main definitions:

* `HoldsAt` — a list stands in slots at an offset;
* `SharedLists.Keeps` — every list that was added stands where it is known to;
* `Automaton.Encodable` — the automata that fit the format;
* `Tables.LaidOut` — the tables that are read from those of an automaton.

Main results:

* `holdsAt_layOutStates` — the lists of a state stand at the offsets in its row;
* `Parser.laidOut_of_ofWritten` — a parser runs on the tables of its automaton;
* `Automaton.Encodable.exists_laidOut` — **the tables of an automaton can be read**.
-/

import IncrementalLR.Parser.Basic

set_option relaxedAutoImplicit false
set_option autoImplicit false

namespace IncrementalLR

/-! ### Numbers of 16 bits -/

/-- All slots are numbers of 16 bits. -/
def Narrow (slots : List Nat) : Prop := ∀ n ∈ slots, n ≤ 65535

namespace Narrow

@[simp] theorem nil : Narrow [] := by
  intro n hn
  cases hn

theorem cons {n : Nat} {slots : List Nat} (hn : n ≤ 65535) (h : Narrow slots) :
    Narrow (n :: slots) := by
  intro m hm
  rcases List.mem_cons.1 hm with rfl | hm
  · exact hn
  · exact h m hm

theorem append {a b : List Nat} (ha : Narrow a) (hb : Narrow b) : Narrow (a ++ b) := by
  intro n hn
  rcases List.mem_append.1 hn with hn | hn
  · exact ha n hn
  · exact hb n hn

theorem flatMap {α : Type} {l : List α} {f : α → List Nat} (h : ∀ x ∈ l, Narrow (f x)) :
    Narrow (l.flatMap f) := by
  intro n hn
  obtain ⟨x, hx, hn⟩ := List.mem_flatMap.1 hn
  exact h x hx n hn

/-- Such slots are read as they are. -/
theorem narrow_eq {slots : List Nat} (h : Narrow slots) : Codec.narrow slots = .ok slots := by
  induction slots with
  | nil => rfl
  | cons n rest ih =>
      have hn := h n List.mem_cons_self
      have hrest := ih fun m hm => h m (List.mem_cons_of_mem _ hm)
      rw [Codec.narrow, if_neg (Nat.not_lt.2 (show n ≤ Codec.bigValue from hn)), hrest]
      rfl

theorem narrowValues_raw {slots : List Nat} (h : Narrow slots) :
    (WrittenTable.raw slots).narrowValues = .ok slots := by
  change (Codec.narrow slots).mapError ParseError.encoding = .ok slots
  rw [h.narrow_eq]
  rfl

end Narrow

theorem narrow_wordSlots (w : Nat) : Narrow (wordSlots w) :=
  .cons (by omega) (.cons (by omega) .nil)

/-! ### Lists in slots -/

/-- A list stands in slots at an offset. -/
def HoldsAt (slots list : List Nat) (offset : Nat) : Prop := list <+: slots.drop offset

/-- Appending slots moves nothing. -/
theorem HoldsAt.mono {slots slots' list : List Nat} {offset : Nat} (h : HoldsAt slots list offset)
    (hslots : slots <+: slots') : HoldsAt slots' list offset := by
  obtain ⟨more, rfl⟩ := hslots
  rw [HoldsAt, List.drop_append]
  exact h.trans (List.prefix_append _ _)

/-- The first slot of what stands at an offset, and what stands at the next one. -/
theorem getElem?_of_drop {slots : Array Nat} {i n : Nat} {rest : List Nat}
    (h : slots.toList.drop i = n :: rest) :
    slots[i]? = some n ∧ slots.toList.drop (i + 1) = rest := by
  have hnext : slots.toList.drop (i + 1) = (slots.toList.drop i).drop 1 := by
    rw [List.drop_drop]
  refine ⟨?_, ?_⟩
  · rw [← Array.getElem?_toList, ← Nat.add_zero i, ← List.getElem?_drop, h]
    rfl
  · rw [hnext, h]
    rfl

/-- Every list that was added stands at the offset that is known for it. -/
def SharedLists.Keeps (s : SharedLists) : Prop :=
  ∀ list offset, s.offsets.lookup list = some offset → HoldsAt s.slots.toList list offset

theorem SharedLists.keeps_empty : SharedLists.Keeps {} := by
  intro list offset h
  cases h

/-- What adding a list does: it stands at the given offset, and what was there stays. -/
theorem SharedLists.Keeps.add {s : SharedLists} (h : s.Keeps) (list : List Nat) :
    (s.add list).2.Keeps ∧ s.slots.toList <+: (s.add list).2.slots.toList ∧
      HoldsAt (s.add list).2.slots.toList list (s.add list).1 := by
  rw [SharedLists.add]
  cases hlookup : s.offsets.lookup list with
  | some offset => exact ⟨h, List.prefix_refl _, h list offset hlookup⟩
  | none =>
      have hgrows : s.slots.toList <+: (s.slots ++ list.toArray).toList := by simp
      have hnew : HoldsAt (s.slots ++ list.toArray).toList list s.slots.size := by
        simp [HoldsAt, List.drop_left']
      refine ⟨?_, hgrows, hnew⟩
      intro list' offset hfound
      dsimp only at hfound ⊢
      rw [List.lookup_cons] at hfound
      split at hfound
      · rename_i heq
        obtain rfl := Option.some.inj hfound
        obtain rfl := eq_of_beq heq
        exact hnew
      · exact (h list' offset hfound).mono hgrows

/-- Every list that was added stands at the offset that is known for it, and all slots are numbers
of 16 bits. -/
structure SharedLists.Sound (s : SharedLists) : Prop where
  holds : ∀ list offset, s.offsets.lookup list = some offset → HoldsAt s.slots.toList list offset
  narrow : Narrow s.slots.toList

theorem SharedLists.sound_empty : SharedLists.Sound {} where
  holds := SharedLists.keeps_empty
  narrow := .nil

theorem SharedLists.Sound.add {s : SharedLists} (h : s.Sound) {list : List Nat}
    (hlist : Narrow list) : (s.add list).2.Sound := by
  refine ⟨(SharedLists.Keeps.add h.holds list).1, ?_⟩
  rw [SharedLists.add]
  cases s.offsets.lookup list with
  | some offset => exact h.narrow
  | none =>
      dsimp only
      rw [Array.toList_append]
      exact h.narrow.append hlist

/-! ### Automata that fit the format -/

/-- An action whose word has 32 bits, of which only a reduction has the bit of reductions: its
state, if it has one, is a number of 16 bits. -/
def Action.Fits : Action → Prop
  | .shift state | .goto state => state ≤ 65535
  | .skip | .reduce _ _ | .reduceRepeat _ _ | .reduceStay _ _ => True

instance (a : Action) : Decidable a.Fits :=
  match a with
  | .shift state | .goto state => inferInstanceAs (Decidable (state ≤ 65535))
  | .skip | .reduce _ _ | .reduceRepeat _ _ | .reduceStay _ _ => .isTrue trivial

/-- An action for a term that is neither the error term nor the end of a list. -/
def EntryFits (e : Nat × Action) : Prop := 0 < e.1 ∧ e.1 < listEnd ∧ e.2.Fits

instance (e : Nat × Action) : Decidable (EntryFits e) :=
  inferInstanceAs (Decidable (0 < e.1 ∧ e.1 < listEnd ∧ e.2.Fits))

/-- An automaton that fits the format. -/
structure Automaton.Encodable (a : Automaton) : Prop where
  actions : ∀ s ∈ a.states, ∀ e ∈ s.actions, EntryFits e
  other : ∀ s ∈ a.states, ∀ x ∈ s.other, x.Fits
  skip : ∀ s ∈ a.states, ∀ e ∈ s.skip, EntryFits e
  dialects : ∀ d ∈ a.dialects, ∀ term ∈ d.2, term < listEnd
  precedence : ∀ term ∈ a.precedence, term < listEnd

theorem narrow_actionSlots {actions : List (Nat × Action)} (h : ∀ e ∈ actions, EntryFits e)
    (other : Option Action) : Narrow (actionSlots actions other) := by
  have hentries : Narrow (actions.flatMap fun a => a.1 :: wordSlots a.2.code) :=
    .flatMap fun e he => .cons (Nat.le_of_lt (h e he).2.1) (narrow_wordSlots _)
  refine hentries.append (.cons (Nat.le_refl _) ?_)
  cases other with
  | none => exact .cons (Nat.zero_le _) .nil
  | some a => exact .cons (show 2 ≤ 65535 by decide) (narrow_wordSlots _)

/-! ### The rows of states -/

/-- The lists of every state stand at the offsets in its row, and what was there before stays. -/
theorem holdsAt_layOutStates {states : List ParseState} {lists : SharedLists} (h : lists.Keeps) :
    lists.slots.toList <+: (layOutStates states lists).2.slots.toList ∧
      ∀ i s, states[i]? = some s → ∃ actions skip,
        HoldsAt (layOutStates states lists).1 (s.row actions skip) (6 * i) ∧
        HoldsAt (layOutStates states lists).2.slots.toList (actionSlots s.actions s.other) actions ∧
        HoldsAt (layOutStates states lists).2.slots.toList (actionSlots s.skip none) skip := by
  induction states generalizing lists with
  | nil =>
      refine ⟨List.prefix_refl _, ?_⟩
      intro i s hs
      simp at hs
  | cons s rest ih =>
      obtain ⟨h₁, hp₁, ha⟩ := h.add (actionSlots s.actions s.other)
      obtain ⟨h₂, hp₂, hk⟩ := h₁.add (actionSlots s.skip none)
      obtain ⟨hp₃, hrest⟩ := ih h₂
      rw [layOutStates]
      refine ⟨hp₁.trans (hp₂.trans hp₃), ?_⟩
      intro i s' hs'
      cases i with
      | zero =>
          obtain rfl := Option.some.inj hs'
          refine ⟨_, _, ?_, (ha.mono hp₂).mono hp₃, hk.mono hp₃⟩
          exact List.prefix_append _ _
      | succ i =>
          obtain ⟨actions, skip, hrow, ha', hk'⟩ := hrest i s' hs'
          refine ⟨actions, skip, ?_, ha', hk'⟩
          have hdrop : ∀ (row slots : List Nat), row.length = 6 →
              (row ++ slots).drop (6 * (i + 1)) = slots.drop (6 * i) := by
            intro row slots hrow
            have hnext : 6 * (i + 1) = row.length + 6 * i := by omega
            rw [hnext, List.drop_append, List.drop_eq_nil_of_le (by omega), List.nil_append,
              Nat.add_sub_cancel_left]
          rw [HoldsAt, hdrop _ _ rfl]
          exact hrow

/-- States have six slots each. -/
theorem length_layOutStates (states : List ParseState) (lists : SharedLists) :
    (layOutStates states lists).1.length = 6 * states.length := by
  induction states generalizing lists with
  | nil => rfl
  | cons s rest ih =>
      rw [layOutStates]
      dsimp only
      rw [List.length_append, ih, List.length_cons]
      change 6 + 6 * rest.length = 6 * (rest.length + 1)
      omega

theorem sound_layOutStates {states : List ParseState}
    (hactions : ∀ s ∈ states, ∀ e ∈ s.actions, EntryFits e)
    (hskip : ∀ s ∈ states, ∀ e ∈ s.skip, EntryFits e) {lists : SharedLists} (h : lists.Sound) :
    (layOutStates states lists).2.Sound := by
  induction states generalizing lists with
  | nil => exact h
  | cons s rest ih =>
      have h₁ := h.add (narrow_actionSlots (hactions s List.mem_cons_self) s.other)
      have h₂ := h₁.add (narrow_actionSlots (hskip s List.mem_cons_self) none)
      exact ih (fun x hx => hactions x (List.mem_cons_of_mem _ hx))
        (fun x hx => hskip x (List.mem_cons_of_mem _ hx)) h₂

/-! ### The whole table -/

/-- Term lists are only appended. -/
theorem prefix_layOutDialects (dialects : List (String × List Nat)) (offsets : Keyed String Nat)
    (slots : Array Nat) :
    slots.toList <+: (layOutDialects dialects offsets slots).2.toList := by
  induction dialects generalizing offsets slots with
  | nil => exact List.prefix_refl _
  | cons d rest ih =>
      have hgrown : (slots ++ d.2.toArray |>.push listEnd).toList =
          slots.toList ++ (d.2 ++ [listEnd]) := by simp
      have key := ih (offsets.insert d.1 slots.size) (slots ++ d.2.toArray |>.push listEnd)
      rw [hgrown] at key
      exact (List.prefix_append _ _).trans key

theorem narrow_layOutDialects {dialects : List (String × List Nat)} {offsets : Keyed String Nat}
    {slots : Array Nat} (hdialects : ∀ d ∈ dialects, ∀ term ∈ d.2, term < listEnd)
    (hslots : Narrow slots.toList) :
    Narrow (layOutDialects dialects offsets slots).2.toList := by
  induction dialects generalizing offsets slots with
  | nil => exact hslots
  | cons d rest ih =>
      obtain ⟨name, terms⟩ := d
      have hterms : Narrow terms := fun term hterm =>
        Nat.le_of_lt (hdialects (name, terms) List.mem_cons_self term hterm)
      have hgrown : (slots ++ terms.toArray |>.push listEnd).toList =
          slots.toList ++ (terms ++ [listEnd]) := by simp
      have hnarrow : Narrow (slots ++ terms.toArray |>.push listEnd).toList := by
        rw [hgrown]
        exact hslots.append (hterms.append (.cons (Nat.le_refl _) .nil))
      exact ih (fun d hd => hdialects d (List.mem_cons_of_mem _ hd)) hnarrow

/-- The gotos are written in numbers of 16 bits. -/
theorem narrow_gotoSlots (gotos : List (Nat × Nat × Nat)) : Narrow (gotoSlots gotos) := by
  have hgroups : ∀ groups, Narrow (groupSlots groups) := by
    intro groups
    induction groups with
    | nil => exact .nil
    | cons g rest ih =>
        obtain ⟨target, sources⟩ := g
        have hsources : Narrow (sources.map (· % 65536)) := by
          intro n hn
          obtain ⟨m, -, rfl⟩ := List.mem_map.1 hn
          exact Nat.le_of_lt_succ (Nat.mod_lt m (by decide))
        refine .cons ?_ (.cons (by omega) (hsources.append ih))
        split <;> omega
  have hoffsets : ∀ (empty offset : Nat) (sections : List (List Nat)), empty ≤ 65535 →
      Narrow (sectionOffsets empty offset sections) := by
    intro empty offset sections hempty
    induction sections generalizing offset with
    | nil => exact .nil
    | cons s rest ih =>
        refine .cons ?_ (ih _)
        split
        · exact hempty
        · omega
  refine .cons (by omega) ((hoffsets _ _ _ (by omega)).append ?_)
  refine .cons (by omega) (.cons (Nat.le_refl _) ?_)
  intro n hn
  obtain ⟨s, hs, hn⟩ := List.mem_flatten.1 hn
  obtain ⟨term, -, rfl⟩ := List.mem_map.1 hs
  exact hgroups _ n hn

/-- The tables that are read from those of an automaton. -/
structure Tables.LaidOut (t : Tables) (a : Automaton) : Prop where
  states : a.layOut.states.values = .ok t.states.toList
  data : a.layOut.data.narrowValues = .ok t.data.toList
  gotos : a.layOut.gotos.narrowValues = .ok t.gotos.toList

/-- A parser runs on the tables of its automaton. -/
theorem Parser.laidOut_of_ofWritten {a : Automaton} {epoch : Nat} {w : WrittenParser} {p : Parser}
    (htables : w.tables = a.layOut) (h : Parser.ofWritten epoch w = .ok p) :
    p.tables.LaidOut a := by
  rw [Parser.ofWritten] at h
  by_cases hversion : w.version ≠ tableVersion
  · rw [if_pos hversion] at h
    cases h
  · rw [if_neg hversion] at h
    obtain ⟨_, -, h⟩ := bind_ok h
    obtain ⟨_, -, h⟩ := bind_ok h
    obtain ⟨_, -, h⟩ := bind_ok h
    split at h
    · obtain ⟨states, hstates, h⟩ := bind_ok h
      obtain ⟨data, hdata, h⟩ := bind_ok h
      obtain ⟨gotos, hgotos, h⟩ := bind_ok h
      obtain rfl := Except.ok.inj h
      exact ⟨htables ▸ hstates, htables ▸ hdata, htables ▸ hgotos⟩
    · cases h

/-- The slots of the lists: the action lists, the term lists of the dialects, the precedence
list. -/
theorem Automaton.data_eq (a : Automaton) :
    a.layOut.data = .raw ((layOutDialects a.dialects {} (layOutStates a.states {}).2.slots).2.toList
      ++ (a.precedence ++ [listEnd])) := by
  simp [Automaton.layOut]

/-- They are numbers of 16 bits. -/
theorem Automaton.Encodable.narrow_data {a : Automaton} (h : a.Encodable) :
    ∃ slots, a.layOut.data = .raw slots ∧ Narrow slots := by
  have hsound := sound_layOutStates h.actions h.skip SharedLists.sound_empty
  have hdialects := @narrow_layOutDialects a.dialects {} _ h.dialects hsound.narrow
  have hprecedence : Narrow a.precedence := fun term hterm => Nat.le_of_lt (h.precedence term hterm)
  exact ⟨_, a.data_eq,
    hdialects.append (hprecedence.append (.cons (Nat.le_refl _) .nil))⟩

/-- **The tables of an automaton can be read.** -/
theorem Automaton.Encodable.exists_laidOut {a : Automaton} (h : a.Encodable) :
    ∃ t : Tables, t.LaidOut a := by
  obtain ⟨slots, hdata, hnarrow⟩ := h.narrow_data
  refine ⟨⟨(layOutStates a.states {}).1.toArray, slots.toArray, (gotoSlots a.gotos).toArray⟩,
    rfl, ?_, ?_⟩
  · rw [hdata]
    exact hnarrow.narrowValues_raw
  · exact (narrow_gotoSlots a.gotos).narrowValues_raw

/-- Reading numbers of 16 bits changes none, and only such numbers are read. -/
theorem Codec.of_narrow_eq_ok {slots slots' : List Nat} (h : Codec.narrow slots = .ok slots') :
    slots' = slots ∧ Narrow slots := by
  induction slots generalizing slots' with
  | nil => exact ⟨(Except.ok.inj h).symm, .nil⟩
  | cons n rest ih =>
      rw [Codec.narrow] at h
      split at h
      · cases h
      · rename_i hle
        cases hrest : Codec.narrow rest with
        | error e =>
            rw [hrest] at h
            cases h
        | ok rest' =>
            rw [hrest] at h
            obtain ⟨heq, hnarrow⟩ := ih hrest
            rw [← Except.ok.inj h, heq]
            exact ⟨rfl, .cons (Nat.le_of_not_lt hle) hnarrow⟩

theorem WrittenTable.of_narrowValues_raw {slots slots' : List Nat}
    (h : (WrittenTable.raw slots).narrowValues = .ok slots') : slots' = slots ∧ Narrow slots := by
  change (Codec.narrow slots).mapError ParseError.encoding = .ok slots' at h
  cases hread : Codec.narrow slots with
  | error e =>
      rw [hread] at h
      cases h
  | ok read =>
      rw [hread] at h
      rw [← Except.ok.inj h]
      exact Codec.of_narrow_eq_ok hread

theorem WrittenTable.eq_of_narrowValues_raw {slots slots' : List Nat}
    (h : (WrittenTable.raw slots).narrowValues = .ok slots') : slots' = slots :=
  (of_narrowValues_raw h).1

/-- The table has the states of the automaton. -/
theorem Tables.LaidOut.stateCount_eq {t : Tables} {a : Automaton} (ht : t.LaidOut a) :
    t.stateCount = a.states.length := by
  have hstates : t.states.toList = (layOutStates a.states {}).1 := (Except.ok.inj ht.states).symm
  have hlen := congrArg List.length hstates
  rw [length_layOutStates, Array.length_toList] at hlen
  rw [stateCount, hlen]
  omega

/-- The lists of every state stand in the table at the offsets in its row. -/
theorem Tables.LaidOut.holdsAt {t : Tables} {a : Automaton} (ht : t.LaidOut a)
    {i : Nat} {s : ParseState} (hs : a.states[i]? = some s) :
    ∃ actions skip, HoldsAt t.states.toList (s.row actions skip) (6 * i) ∧
      HoldsAt t.data.toList (actionSlots s.actions s.other) actions ∧
      HoldsAt t.data.toList (actionSlots s.skip none) skip := by
  obtain ⟨-, hrows⟩ := @holdsAt_layOutStates a.states {} SharedLists.keeps_empty
  obtain ⟨actions, skip, hrow, hactions, hskip⟩ := hrows i s hs
  have hstates : t.states.toList = (layOutStates a.states {}).1 := (Except.ok.inj ht.states).symm
  have hslots := WrittenTable.eq_of_narrowValues_raw (a.data_eq ▸ ht.data)
  have hprefix := (prefix_layOutDialects a.dialects {} (layOutStates a.states {}).2.slots).trans
    (List.prefix_append _ (a.precedence ++ [listEnd]))
  rw [hstates, hslots]
  exact ⟨actions, skip, hrow, hactions.mono hprefix, hskip.mono hprefix⟩

/-- The gotos are read as they were written. -/
theorem Tables.LaidOut.gotos_eq {t : Tables} {a : Automaton} (ht : t.LaidOut a) :
    t.gotos.toList = gotoSlots a.gotos := by
  have heq := ht.gotos
  rw [Automaton.layOut, (narrow_gotoSlots a.gotos).narrowValues_raw] at heq
  exact (Except.ok.inj heq).symm

/-- All slots of the lists are numbers of 16 bits. -/
theorem Tables.LaidOut.narrow_data {t : Tables} {a : Automaton} (ht : t.LaidOut a) :
    Narrow t.data.toList := by
  obtain ⟨heq, hnarrow⟩ := WrittenTable.of_narrowValues_raw (a.data_eq ▸ ht.data)
  exact heq ▸ hnarrow

/-- All slots of the gotos are numbers of 16 bits. -/
theorem Tables.LaidOut.narrow_gotos {t : Tables} {a : Automaton} (ht : t.LaidOut a) :
    Narrow t.gotos.toList :=
  ht.gotos_eq ▸ narrow_gotoSlots a.gotos

end IncrementalLR
