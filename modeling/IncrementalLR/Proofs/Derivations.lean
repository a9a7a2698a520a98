/-
**Derivations and records.**

Shifts put tokens on a stack and reductions join the newest symbols to one, so each symbol of a
stack has a derivation: a tree over the tokens that were shifted.  The records of the stack describe
the nodes of these derivations, but skipped tokens and markers stand among them, and the sizes of
the nodes around them count them.

This module says what records are without some of them, and how the frames of a stack cut its
records into those of its symbols.

Main definitions:

* `Derivation`, `Derivation.outlines` — derivations, and the nodes that they get;
* `Record.erase` — records without some of them, and the other sizes reduced;
* `Record.Erases` — the same as a relation;
* `Record.Layers` — how the frames cut the records.

Main results:

* `Record.Erases.erase_eq` — the relation determines the function;
* `Record.Erases.sinkInto` — a node may sink below records that are gone;
* `Record.Layers.split` — the records since a symbol began.
-/

import IncrementalLR.Proofs.Outlines
import IncrementalLR.Stack.Store

set_option relaxedAutoImplicit false
set_option autoImplicit false

namespace IncrementalLR

/-- How a symbol came about: as a token, or by a reduction of at least one symbol, which are given
oldest first. -/
inductive Derivation where
  | token (term start stop : Nat)
  | rule (term : Nat) (repeated : Bool) (first : Derivation) (rest : List Derivation)

namespace Derivation

/-- Where the text starts. -/
def start : Derivation → Nat
  | token _ start _ => start
  | rule _ _ first _ => first.start

mutual

/-- Where the text stops. -/
def stop : Derivation → Nat
  | token _ _ stop => stop
  | rule _ _ first rest => stopAfter first.stop rest

/-- Where the text of several symbols stops that come after a position. -/
def stopAfter : Nat → List Derivation → Nat
  | pos, [] => pos
  | _, d :: rest => stopAfter d.stop rest

end

mutual

/-- The nodes of a derivation: a token has one if its term is small enough, and a reduction has one
unless its term is that of a repetition; otherwise the nodes below it stand for it. -/
def outlines (g : Grammar) : Derivation → List (Outline Nat)
  | token term start stop => if term ≤ g.maxNode then [.node term start stop []] else []
  | rule term repeated first rest =>
      let inner := first.outlines g ++ outlinesAll g rest
      if term < g.minRepeat || repeated then
        [.node term first.start (stopAfter first.stop rest) inner]
      else inner

/-- The nodes of several derivations. -/
def outlinesAll (g : Grammar) : List Derivation → List (Outline Nat)
  | [] => []
  | d :: rest => d.outlines g ++ outlinesAll g rest

end

@[simp] theorem outlinesAll_nil (g : Grammar) : outlinesAll g [] = [] := by
  rw [outlinesAll]

@[simp] theorem outlinesAll_cons (g : Grammar) (d : Derivation) (rest : List Derivation) :
    outlinesAll g (d :: rest) = d.outlines g ++ outlinesAll g rest := by
  rw [outlinesAll]

@[simp] theorem outlinesAll_append (g : Grammar) (ds rest : List Derivation) :
    outlinesAll g (ds ++ rest) = outlinesAll g ds ++ outlinesAll g rest := by
  induction ds with
  | nil => simp
  | cons d ds ih => simp [ih]

theorem stopAfter_append (pos : Nat) (ds : List Derivation) (d : Derivation) :
    stopAfter pos (ds ++ [d]) = d.stop := by
  induction ds generalizing pos with
  | nil => rw [List.nil_append, stopAfter, stopAfter]
  | cons x ds ih => rw [List.cons_append, stopAfter, ih]

/-- A reduction ends where the newest of its symbols ends. -/
theorem stop_rule_reverse {newest d : Derivation} {taken rest : List Derivation}
    (h : newest ∈ (taken ++ d :: rest).head?) (term : Nat) (repeated : Bool) :
    (rule term repeated d taken.reverse).stop = newest.stop := by
  rw [stop]
  cases taken with
  | nil =>
      obtain rfl : d = newest := by simpa using h
      rw [List.reverse_nil, stopAfter]
  | cons x taken =>
      obtain rfl : x = newest := by simpa using h
      rw [List.reverse_cons, stopAfter_append]

/-- The records of the nodes of symbols that are given newest first, also newest first. -/
def recordsOf (g : Grammar) (ds : List Derivation) : List Record :=
  (Outline.postorderAll (outlinesAll g ds.reverse)).reverse

@[simp] theorem recordsOf_nil (g : Grammar) : recordsOf g [] = [] := by
  simp [recordsOf]

theorem recordsOf_append (g : Grammar) (ds rest : List Derivation) :
    recordsOf g (ds ++ rest) = recordsOf g ds ++ recordsOf g rest := by
  simp [recordsOf]

theorem recordsOf_token (g : Grammar) (term start stop : Nat) :
    recordsOf g [token term start stop] =
      if term ≤ g.maxNode then [⟨term, start, stop, 4⟩] else [] := by
  simp only [recordsOf, List.reverse_cons, List.reverse_nil, List.nil_append, outlinesAll_cons,
    outlinesAll_nil, List.append_nil, outlines]
  split <;> simp [Outline.postorder]

/-- A reduction adds its own record to those of its symbols, or none. -/
theorem recordsOf_rule (g : Grammar) (term : Nat) (repeated : Bool) (first : Derivation)
    (rest : List Derivation) :
    recordsOf g [rule term repeated first rest] =
      if term < g.minRepeat || repeated then
        ⟨term, first.start, stopAfter first.stop rest,
          4 * ((recordsOf g (first :: rest).reverse).length + 1)⟩ ::
            recordsOf g (first :: rest).reverse
      else recordsOf g (first :: rest).reverse := by
  simp only [recordsOf, List.reverse_cons, List.reverse_nil, List.nil_append, outlinesAll_cons,
    outlinesAll_nil, List.append_nil, outlines, List.reverse_append, List.reverse_reverse,
    List.singleton_append]
  split
  · simp [Outline.postorder]
    omega
  · rfl

end Derivation

/-! ### Erasing records -/

namespace Record

/-- Records, newest first, without those that are `gone`.  The sizes of the others count only what
is left of the records that they covered. -/
def erase (gone : Record → Bool) : List Record → List Record
  | [] => []
  | r :: rest =>
      if gone r then erase gone rest
      else
        let covered := rest.take (r.size.toNat / 4 - 1)
        { r with size := r.size - 4 * covered.countP gone } :: erase gone rest

/-- What is left of records without those that are gone, where the sizes of the others are right:
each covers whole nodes. -/
inductive Erases (gone : Record → Bool) : List Record → List Record → Prop
  | nil : Erases gone [] []
  | gone {r : Record} {rs left : List Record} : gone r = true → Erases gone rs left →
      Erases gone (r :: rs) left
  | node {r : Record} {inner rs innerLeft left : List Record} : gone r = false →
      r.size = 4 * (inner.length + 1 : Nat) → Erases gone inner innerLeft →
      Erases gone rs left →
      Erases gone (r :: (inner ++ rs))
        ({ r with size := 4 * (innerLeft.length + 1 : Nat) } :: (innerLeft ++ left))

namespace Erases

variable {gone : Record → Bool} {rs left rs' left' : List Record}

theorem length_add (h : Erases gone rs left) : left.length + rs.countP gone = rs.length := by
  induction h with
  | nil => rfl
  | gone hr _ ih =>
      rw [List.countP_cons_of_pos hr, List.length_cons]
      omega
  | node hr _ _ _ ihInner ih =>
      rw [List.countP_cons_of_neg (by simp [hr]), List.countP_append]
      simp only [List.length_cons, List.length_append]
      omega

theorem append (h : Erases gone rs left) (h' : Erases gone rs' left') :
    Erases gone (rs ++ rs') (left ++ left') := by
  induction h with
  | nil => exact h'
  | gone hr _ ih => exact .gone hr ih
  | node hr hsize hinner _ _ ih =>
      rw [List.cons_append, List.cons_append, List.append_assoc, List.append_assoc]
      exact .node hr hsize hinner ih

/-- The relation determines the function. -/
theorem erase_eq (h : Erases gone rs left) : erase gone rs = left := by
  suffices ∀ rest, erase gone (rs ++ rest) = left ++ erase gone rest by
    simpa [erase] using this []
  induction h with
  | nil => exact fun _ => rfl
  | gone hr _ ih =>
      intro rest
      rw [List.cons_append, erase, if_pos hr, ih]
  | @node r inner rs innerLeft left hr hsize hinner _ ihInner ih =>
      intro rest
      have hcount := hinner.length_add
      have htake : (inner ++ rs ++ rest).take (r.size.toNat / 4 - 1) = inner := by
        have hlength : r.size.toNat / 4 - 1 = inner.length := by omega
        rw [hlength, List.append_assoc, List.take_left]
      rw [List.cons_append, erase, if_neg (by simp [hr])]
      simp only [htake]
      rw [List.append_assoc, ihInner, ih, List.cons_append, List.append_assoc]
      congr 2
      omega

/-- Records that are gone leave nothing. -/
theorem of_all_gone : ∀ {rs : List Record}, (∀ r ∈ rs, gone r = true) → Erases gone rs []
  | [], _ => .nil
  | r :: rs, h =>
      .gone (h r (by simp)) (of_all_gone fun q hq => h q (List.mem_cons_of_mem r hq))

theorem of_cons_gone {r : Record} (hr : gone r = true) (h : Erases gone (r :: rs) left) :
    Erases gone rs left := by
  cases h with
  | gone _ h => exact h
  | node hnot =>
      rw [hr] at hnot
      cases hnot

/-- Where the newest records are gone, the others leave the same. -/
theorem of_append_gone {tail : List Record} (htail : ∀ r ∈ tail, gone r = true)
    (h : Erases gone (tail ++ rs) left) : Erases gone rs left := by
  induction tail with
  | nil => exact h
  | cons r tail ih =>
      rw [List.forall_mem_cons] at htail
      exact ih htail.2 (of_cons_gone htail.1 h)

/-- Only what is gone among the records matters. -/
theorem congr {gone' : Record → Bool} (h : Erases gone rs left)
    (heq : ∀ r ∈ rs, gone' r = gone r) : Erases gone' rs left := by
  induction h with
  | nil => exact .nil
  | gone hr _ ih =>
      rw [List.forall_mem_cons] at heq
      exact .gone (heq.1.trans hr) (ih heq.2)
  | node hr hsize _ _ ihInner ih =>
      rw [List.forall_mem_cons, List.forall_mem_append] at heq
      exact .node (heq.1.trans hr) hsize (ihInner heq.2.1) (ih heq.2.2)

/-- A node on top of records that are all below it. -/
theorem cons_node {r : Record} (h : Erases gone rs left) (hr : gone r = false)
    (hsize : r.size = 4 * (rs.length + 1 : Nat)) :
    Erases gone (r :: rs) ({ r with size := 4 * (left.length + 1 : Nat) } :: left) := by
  have key := Erases.node hr hsize h .nil
  rwa [List.append_nil, List.append_nil] at key

/-- A node that sinks below records that are gone leaves the same as one that stays on top. -/
theorem sinkInto {r : Record} {above below : List Record} (h : Erases gone above left)
    (hr : ∀ size, 0 ≤ size → gone { r with size } = false)
    (hsize : r.size = 4 * (above.length + 1 : Nat))
    (habove : ∀ c ∈ above, gone c = true ∨ c.stop ≤ r.stop)
    (hbelow : ∀ c ∈ below, c.stop ≤ r.stop) :
    ∃ above', Stack.sinkInto r (above ++ below) = above' ++ below ∧
      (∀ c ∈ above', c ∈ above ∨ c.stop = r.stop) ∧
      Erases gone above' ({ r with size := 4 * (left.length + 1 : Nat) } :: left) := by
  obtain ⟨tail, rest, rfl, htail, hrest⟩ : ∃ tail rest, above = tail ++ rest ∧
      (∀ c ∈ tail, r.stop < c.stop) ∧ ∀ c ∈ rest.head?, c.stop ≤ r.stop := by
    refine ⟨above.takeWhile fun c => r.stop < c.stop, above.dropWhile fun c => r.stop < c.stop,
      List.takeWhile_append_dropWhile.symm, ?_, ?_⟩
    · intro c hc
      simpa using List.all_eq_true.1 List.all_takeWhile c hc
    · intro c hc
      have key := List.head?_dropWhile_not (fun c : Record => decide (r.stop < c.stop)) above
      rw [Option.mem_def.1 hc] at key
      simpa using key
  -- the records that end later are the newest ones of `above`
  have hhead : ∀ c ∈ (rest ++ below).head?, c.stop ≤ r.stop := by
    cases rest with
    | nil => exact fun c hc => hbelow c (List.mem_of_mem_head? hc)
    | cons q rest => exact hrest
  have hstop : (rest ++ below).takeWhile (fun c => r.stop < c.stop) = [] ∧
      (rest ++ below).dropWhile (fun c => r.stop < c.stop) = rest ++ below := by
    cases hcases : rest ++ below with
    | nil => exact ⟨rfl, rfl⟩
    | cons q qs =>
        have hq : ¬ r.stop < q.stop := by
          have hle := hhead q (by rw [hcases]; rfl)
          omega
        simp [hq]
  have htake : ((tail ++ rest) ++ below).takeWhile (fun c => r.stop < c.stop) = tail := by
    rw [List.append_assoc, List.takeWhile_append_of_pos (by simpa using htail), hstop.1,
      List.append_nil]
  have hdrop : ((tail ++ rest) ++ below).dropWhile (fun c => r.stop < c.stop) = rest ++ below := by
    rw [List.append_assoc, List.dropWhile_append_of_pos (by simpa using htail), hstop.2]
  have hgone : ∀ c ∈ tail, gone c = true := by
    intro c hc
    have hlt := htail c hc
    refine (habove c (List.mem_append_left _ hc)).resolve_right ?_
    omega
  rw [List.length_append] at hsize
  unfold Stack.sinkInto
  simp only [htake, hdrop]
  split
  · have hnew : max 4 (r.size - 4 * tail.length) = 4 * (rest.length + 1 : Nat) := by omega
    refine ⟨tail ++ { r with size := 4 * (rest.length + 1 : Nat) } :: rest, by simp [hnew], ?_, ?_⟩
    · intro c hc
      rcases List.mem_append.1 hc with hc | hc
      · exact Or.inl (List.mem_append_left _ hc)
      · rcases List.mem_cons.1 hc with rfl | hc
        · exact Or.inr rfl
        · exact Or.inl (List.mem_append_right _ hc)
    · exact (of_all_gone hgone).append
        ((of_append_gone hgone h).cons_node (hr _ (by omega)) rfl)
  · refine ⟨r :: (tail ++ rest), rfl, ?_, ?_⟩
    · intro c hc
      rcases List.mem_cons.1 hc with rfl | hc
      · exact Or.inr rfl
      · exact Or.inl hc
    · exact h.cons_node (hr r.size (by omega)) (by rw [hsize, List.length_append])

end Erases

/-! ### Frames and records -/

/-- The frames of a stack cut its records into those of its symbols, both newest first.  What stands
before the records of a symbol ends by its start. -/
inductive Layers (g : Grammar) (gone : Record → Bool) :
    List Frame → List Derivation → List Record → Prop
  | nil {rs : List Record} : Erases gone rs [] → Layers g gone [] [] rs
  | cons {f : Frame} {fs : List Frame} {d : Derivation} {ds : List Derivation}
      {above below : List Record} : f.bufferPos = 4 * below.length → f.start = d.start →
      (∀ r ∈ below, r.stop ≤ f.start) → Erases gone above (Derivation.recordsOf g [d]) →
      Layers g gone fs ds below → Layers g gone (f :: fs) (d :: ds) (above ++ below)

namespace Layers

variable {g : Grammar} {gone : Record → Bool} {fs : List Frame} {ds : List Derivation}
  {rs : List Record}

theorem length_eq (h : Layers g gone fs ds rs) : fs.length = ds.length := by
  induction h with
  | nil => rfl
  | cons _ _ _ _ _ ih => simp [ih]

theorem erases (h : Layers g gone fs ds rs) : Erases gone rs (Derivation.recordsOf g ds) := by
  induction h with
  | nil h => simpa using h
  | @cons f fs d ds _ _ _ _ _ h _ ih =>
      rw [← List.singleton_append, Derivation.recordsOf_append]
      exact h.append ih

/-- A record that is gone belongs to the newest symbol. -/
theorem push_gone {r : Record} (hr : gone r = true) (h : Layers g gone fs ds rs) :
    Layers g gone fs ds (r :: rs) := by
  cases h with
  | nil h => exact .nil (.gone hr h)
  | cons hpos hstart hbelow h hrest =>
      exact .cons hpos hstart hbelow (.gone hr h) hrest

theorem congr {gone' : Record → Bool} (h : Layers g gone fs ds rs)
    (heq : ∀ r ∈ rs, gone' r = gone r) : Layers g gone' fs ds rs := by
  induction h with
  | nil h => exact .nil (h.congr heq)
  | cons hpos hstart hbelow h _ ih =>
      rw [List.forall_mem_append] at heq
      exact .cons hpos hstart hbelow (h.congr heq.1) (ih heq.2)

/-- The records since a symbol began are those of the symbols from it on. -/
theorem split {f : Frame} {popped fs : List Frame} (h : Layers g gone (popped ++ f :: fs) ds rs) :
    ∃ taken d rest above below, ds = taken ++ d :: rest ∧ taken.length = popped.length ∧
      rs = above ++ below ∧ f.bufferPos = 4 * below.length ∧ f.start = d.start ∧
      (∀ r ∈ below, r.stop ≤ f.start) ∧
      Erases gone above (Derivation.recordsOf g (taken ++ [d])) ∧
      Layers g gone fs rest below := by
  induction popped generalizing ds rs with
  | nil =>
      cases h with
      | @cons _ _ d ds above below hpos hstart hbelow h hrest =>
          exact ⟨[], d, ds, above, below, rfl, rfl, rfl, hpos, hstart, hbelow, h, hrest⟩
  | cons f' popped ih =>
      cases h with
      | @cons _ _ d' ds newest below' _ _ _ h hrest =>
          obtain ⟨taken, d, rest, above, below, rfl, hlength, rfl, hpos, hstart, hbelow, herases,
            hlayers⟩ := ih hrest
          refine ⟨d' :: taken, d, rest, newest ++ above, below, rfl, by simp [hlength], by simp,
            hpos, hstart, hbelow, ?_, hlayers⟩
          rw [List.cons_append, ← List.singleton_append, Derivation.recordsOf_append]
          exact h.append herases

end Layers

/-- Whether a record is a marker or that of a skipped token. -/
def isGone (skipped : List Record) (r : Record) : Bool := !r.isNode || skipped.contains r

theorem isGone_append {skipped more : List Record} {r : Record} (h : r ∉ more) :
    isGone (skipped ++ more) r = isGone skipped r := by
  simp [isGone, h]

theorem isGone_eq_false {skipped : List Record} {r : Record} (hnode : r.isNode = true)
    (h : r ∉ skipped) : isGone skipped r = false := by
  simp [isGone, hnode, h]

end Record

end IncrementalLR
