/-
**The terms that a dialect string suppresses.**

Each dialect of an automaton lists terms that are produced only where the dialect is named.  The
lists are written into the tables one after the other, each behind its end mark, and the offset of
each is noted under the name of its dialect.  A parser reads the lists of the dialects that its
dialect string does not name back from the tables; so every term of such a list is refused, however
often the parser was configured.

The end mark itself cannot be a term of a list: what stands behind it is not read.

Main definitions:

* `Dialect.named`, `Automaton.Suppresses` — the dialects that a text names, and the terms of the
  others;
* `Parser.VariantOf` — parsers made from a written form and configured any number of times;
* `Automaton.DialectsFit` — dialects that can be told apart and read back.

Main results:

* `mem_layOutDialects` — every list stands in the slots at the offset noted for it;
* `Parser.SpeaksOf.allows_eq_false` — **suppressed terms are refused**.
-/

import IncrementalLR.Proofs.Layouts

set_option relaxedAutoImplicit false
set_option autoImplicit false

namespace IncrementalLR

/-- The dialects that a text names. -/
def Dialect.named (source : Option String) : List String := (source.map Text.pieces).getD []

/-- Some dialect that the text does not name lists the term. -/
def Automaton.Suppresses (a : Automaton) (source : Option String) (term : Nat) : Prop :=
  ∃ d ∈ a.dialects, d.1 ∉ Dialect.named source ∧ term ∈ d.2

/-- Dialects of different names, with terms up to the largest one and below the end mark. -/
structure Automaton.DialectsFit (a : Automaton) (maxTerm : Nat) : Prop where
  names : (a.dialects.map (·.1)).Nodup
  terms : ∀ d ∈ a.dialects, ∀ term ∈ d.2, term ≤ maxTerm ∧ term < listEnd

namespace Parser

/-- Parsers made from a written form and configured any number of times. -/
inductive VariantOf (w : WrittenParser) : Parser → Prop
  | made {epoch : Nat} {p : Parser} : Parser.ofWritten epoch w = .ok p → VariantOf w p
  | configured {epoch : Nat} {p p' : Parser} {c : Config} : VariantOf w p →
      p.configure epoch c = .ok p' → VariantOf w p'

end Parser

/-! ### Where the lists stand -/

namespace Keyed

variable {κ β : Type} [DecidableEq κ]

theorem mem_put_self (k : κ) (v : β) (l : List (κ × β)) : (k, v) ∈ put k v l := by
  induction l with
  | nil => exact List.mem_cons_self
  | cons e rest ih =>
      obtain ⟨k', v'⟩ := e
      rw [put]
      split
      · rename_i hkey
        rw [hkey]
        exact List.mem_cons_self
      · exact List.mem_cons_of_mem _ ih

/-- Setting the value of another key leaves a pair where it is. -/
theorem mem_put_of_ne {k k' : κ} {v v' : β} {l : List (κ × β)} (h : (k, v) ∈ l) (hne : k' ≠ k) :
    (k, v) ∈ put k' v' l := by
  induction l with
  | nil => cases h
  | cons e rest ih =>
      rw [put]
      rcases List.mem_cons.1 h with rfl | h
      · rw [if_neg (Ne.symm hne)]
        exact List.mem_cons_self
      · split
        · exact List.mem_cons_of_mem _ h
        · exact List.mem_cons_of_mem _ (ih h)

end Keyed

/-- The offset of a dialect stays what it is unless its name comes again. -/
theorem mem_entries_layOutDialects {name : String} {offset : Nat} {offsets : Keyed String Nat}
    (h : (name, offset) ∈ offsets.entries) {dialects : List (String × List Nat)}
    (hnew : name ∉ dialects.map (·.1)) (slots : Array Nat) :
    (name, offset) ∈ (layOutDialects dialects offsets slots).1.entries := by
  induction dialects generalizing offsets slots with
  | nil => exact h
  | cons d rest ih =>
      rw [List.map_cons, List.mem_cons, not_or] at hnew
      exact ih (Keyed.mem_put_of_ne h (Ne.symm hnew.1)) hnew.2 _

/-- **Every list stands in the slots at the offset noted for it**, with its end mark. -/
theorem mem_layOutDialects {dialects : List (String × List Nat)}
    (hnames : (dialects.map (·.1)).Nodup) (offsets : Keyed String Nat) (slots : Array Nat)
    {d : String × List Nat} (hd : d ∈ dialects) :
    ∃ offset, (d.1, offset) ∈ (layOutDialects dialects offsets slots).1.entries ∧
      HoldsAt (layOutDialects dialects offsets slots).2.toList (d.2 ++ [listEnd]) offset := by
  induction dialects generalizing offsets slots with
  | nil => cases hd
  | cons e rest ih =>
      rw [List.map_cons, List.nodup_cons] at hnames
      rcases List.mem_cons.1 hd with rfl | hd
      · have hgrown : (slots ++ d.2.toArray |>.push listEnd).toList =
            slots.toList ++ (d.2 ++ [listEnd]) := by simp
        have hdrop : (slots ++ d.2.toArray |>.push listEnd).toList.drop slots.size =
            d.2 ++ [listEnd] := by
          rw [hgrown, ← Array.length_toList, List.drop_left]
        have hhere : HoldsAt (slots ++ d.2.toArray |>.push listEnd).toList (d.2 ++ [listEnd])
            slots.size := hdrop.symm ▸ List.prefix_refl _
        refine ⟨slots.size, ?_, hhere.mono (prefix_layOutDialects rest _ _)⟩
        exact mem_entries_layOutDialects (Keyed.mem_put_self _ _ _) hnames.1 _
      · exact ih hnames.2 _ _ hd

/-- A list up to its end mark is read back. -/
theorem Tables.termList_of_holdsAt {t : Tables} {terms : List Nat} {offset : Nat}
    (h : HoldsAt t.data.toList (terms ++ [listEnd]) offset)
    (hterms : ∀ term ∈ terms, term < listEnd) : t.termList offset = terms := by
  obtain ⟨rest, hrest⟩ := h
  have hall : ∀ term ∈ terms, decide (term ≠ listEnd) = true := fun term hterm =>
    decide_eq_true (Nat.ne_of_lt (hterms term hterm))
  rw [termList, ← hrest, List.append_assoc, List.takeWhile_append_of_pos hall,
    List.singleton_append, List.takeWhile_cons_of_neg (by simp), List.append_nil]

/-- The term lists of an automaton are read back from its tables. -/
theorem Tables.LaidOut.exists_termList_eq {t : Tables} {a : Automaton} {maxTerm : Nat}
    (ht : t.LaidOut a) (ha : a.DialectsFit maxTerm) {d : String × List Nat} (hd : d ∈ a.dialects) :
    ∃ offset, (d.1, offset) ∈ a.layOut.dialects.entries ∧ t.termList offset = d.2 := by
  obtain ⟨offset, hentry, hholds⟩ :=
    mem_layOutDialects ha.names {} (layOutStates a.states {}).2.slots hd
  refine ⟨offset, hentry, termList_of_holdsAt ?_ fun term hterm => (ha.terms d hd term hterm).2⟩
  have hdata : t.data.toList = (layOutDialects a.dialects {}
      (layOutStates a.states {}).2.slots).2.toList ++ (a.precedence ++ [listEnd]) := by
    rw [WrittenTable.eq_of_narrowValues_raw ht.data]
    simp
  rw [hdata]
  exact hholds.mono (List.prefix_append _ _)

/-! ### Parsers -/

namespace Parser

/-- A parser on the tables of an automaton, with the dialects that its text names. -/
structure SpeaksOf (p : Parser) (a : Automaton) (maxTerm : Nat) : Prop where
  tables : p.tables.LaidOut a
  dialects : p.dialects = a.layOut.dialects
  maxTerm_eq : p.maxTerm = maxTerm
  dialect : p.dialect = .ofNames p.tables p.dialects p.maxTerm p.dialect.source

/-- What a parser takes over from its written form. -/
theorem eq_of_ofWritten {epoch : Nat} {w : WrittenParser} {p : Parser}
    (h : Parser.ofWritten epoch w = .ok p) :
    p.dialects = w.tables.dialects ∧ p.maxTerm = w.maxTerm ∧
      p.dialect = .ofNames p.tables p.dialects p.maxTerm none ∧
      ∃ data, p.tokenizers = w.makeTokenizers data := by
  rw [Parser.ofWritten] at h
  by_cases hversion : w.version ≠ tableVersion
  · rw [if_pos hversion] at h
    cases h
  · rw [if_neg hversion] at h
    obtain ⟨_, -, h⟩ := bind_ok h
    obtain ⟨_, -, h⟩ := bind_ok h
    obtain ⟨_, -, h⟩ := bind_ok h
    split at h
    · obtain ⟨_, -, h⟩ := bind_ok h
      obtain ⟨_, -, h⟩ := bind_ok h
      obtain ⟨_, -, h⟩ := bind_ok h
      obtain rfl := Except.ok.inj h
      exact ⟨rfl, rfl, rfl, _, rfl⟩
    · cases h

theorem speaksOf_of_ofWritten {a : Automaton} {epoch : Nat} {w : WrittenParser} {p : Parser}
    (htables : w.tables = a.layOut) (h : Parser.ofWritten epoch w = .ok p) :
    p.SpeaksOf a w.maxTerm := by
  obtain ⟨hdialects, hmax, hdialect, -⟩ := eq_of_ofWritten h
  refine ⟨laidOut_of_ofWritten htables h, htables ▸ hdialects, hmax, ?_⟩
  rw [hdialect]
  rfl

/-- The tokenizers of a parser whose written form has groups only. -/
theorem groups_of_ofWritten {epoch : Nat} {w : WrittenParser} {p : Parser}
    (h : Parser.ofWritten epoch w = .ok p) (hw : ∀ t ∈ w.tokenizers, ∃ id, t = .group id) :
    ∀ t ∈ p.tokenizers, ∃ g, t = Tokenizer.ofGroup g := by
  intro t ht
  obtain ⟨-, -, -, data, hdata⟩ := eq_of_ofWritten h
  rw [hdata, WrittenParser.makeTokenizers, List.mem_toArray, List.mem_map] at ht
  obtain ⟨u, hu, rfl⟩ := ht
  obtain ⟨id, rfl⟩ := hw u hu
  exact ⟨⟨data, id⟩, rfl⟩

/-- The same tables with the dialects chosen anew, or left as they are. -/
theorem SpeaksOf.choose {p p' : Parser} {a : Automaton} {maxTerm : Nat} (hp : p.SpeaksOf a maxTerm)
    {names : Option String} (htables : p'.tables = p.tables) (hdialects : p'.dialects = p.dialects)
    (hmax : p'.maxTerm = p.maxTerm)
    (hdialect : p'.dialect =
      match names with
      | some names => .ofNames p.tables p.dialects p.maxTerm (some names)
      | none => p.dialect) : p'.SpeaksOf a maxTerm := by
  refine ⟨htables ▸ hp.tables, hdialects.trans hp.dialects, hmax.trans hp.maxTerm_eq, ?_⟩
  rw [htables, hdialects, hmax, hdialect]
  cases names with
  | none => exact hp.dialect
  | some names => rfl

theorem SpeaksOf.configure {p p' : Parser} {a : Automaton} {maxTerm epoch : Nat} {c : Config}
    (hp : p.SpeaksOf a maxTerm) (h : p.configure epoch c = .ok p') : p'.SpeaksOf a maxTerm := by
  rw [Parser.configure] at h
  cases htop : c.top with
  | none =>
      rw [htop] at h
      obtain rfl := Except.ok.inj h
      exact hp.choose rfl rfl rfl rfl
  | some name =>
      rw [htop] at h
      cases hrule : p.topRules.get? name with
      | none =>
          simp only [hrule] at h
          cases h
      | some top =>
          simp only [hrule] at h
          obtain rfl := Except.ok.inj h
          exact hp.choose rfl rfl rfl rfl

theorem VariantOf.speaksOf {w : WrittenParser} {p : Parser} (h : VariantOf w p) {a : Automaton}
    (htables : w.tables = a.layOut) : p.SpeaksOf a w.maxTerm := by
  induction h with
  | made hmade => exact speaksOf_of_ofWritten htables hmade
  | configured _ hconfigure ih => exact ih.configure hconfigure

/-- **Suppressed terms are refused**, whatever the dialect string is. -/
theorem SpeaksOf.allows_eq_false {p : Parser} {a : Automaton} {maxTerm term : Nat}
    (hp : p.SpeaksOf a maxTerm) (ha : a.DialectsFit maxTerm)
    (hterm : a.Suppresses p.dialect.source term) : p.dialect.allows term = false := by
  obtain ⟨d, hd, hunnamed, hlisted⟩ := hterm
  obtain ⟨offset, hentry, hlist⟩ := hp.tables.exists_termList_eq ha hd
  have hdisabled : term ∈ p.dialect.disabled := by
    rw [hp.dialect]
    refine List.mem_flatMap.2 ⟨(d.1, offset), ?_, ?_⟩
    · rw [hp.dialects, List.mem_filter]
      refine ⟨hentry, ?_⟩
      simpa [Dialect.named] using hunnamed
    · rw [hlist, hp.maxTerm_eq, List.mem_filter]
      exact ⟨hlisted, decide_eq_true (ha.terms d hd term hlisted).1⟩
  rw [Dialect.allows, Bool.not_eq_false', List.contains_iff_mem]
  exact hdisabled

end Parser

end IncrementalLR
