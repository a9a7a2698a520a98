/-
**Groups that never end.**

A group reads on as long as there are bytes, and at the end of the input it follows the edges for
the end from state to state.  If these come back to a state where they have been, the group goes
round for ever.  Which states a group goes through depends on the table and on the bytes alone, not
on what it accepts on the way; so whether it ends can be told from the table and the place where it
starts.

A tokenizer gives up after as many steps as there are bytes left and slots in its table.  A run that
ends has passed no state twice at the end of the input, and therefore takes no more steps than that.

Main definitions:

* `Group.onward?`, `Group.endsF` — where a group goes on, and whether it ends within a number of
  steps;
* `Group.Endless` — **a group that never ends**, from a position on.

Main results:

* `Group.reads_scanF` — a group gives up exactly if it does not end within its steps;
* `Group.endsF_enough` — a run that ends takes no more steps than a tokenizer has;
* `Group.reads_scan` — **a tokenizer gives up exactly if its group never ends**.
-/

import IncrementalLR.Proofs.Reading
import Mathlib.Data.Nat.Find

set_option relaxedAutoImplicit false
set_option autoImplicit false

namespace IncrementalLR

namespace Group

variable {g : Group} {d : Document} {hi : Nat}

/-- The state and the position where the group goes on from a state and a position; none if it ends
there. -/
def onward? (g : Group) (d : Document) (hi state pos : Nat) : Option (Nat × Nat) :=
  if (g.slot state).testBit g.id then
    match d.byteBefore hi pos with
    | none => (g.edgeForEnd (g.slot (state + 1)) (g.slot (state + 2))).map fun x => (x, pos)
    | some b => (g.edgeFor (g.slot (state + 1)) (g.slot (state + 2)) b.toNat).map fun x => (x, pos + 1)
  else none

/-- Whether the group ends within a number of steps, from a state and a position on. -/
def endsF (g : Group) (d : Document) (hi : Nat) : Nat → Nat → Nat → Bool
  | 0, _, _ => false
  | fuel + 1, state, pos =>
      match g.onward? d hi state pos with
      | some next => endsF g d hi fuel next.1 next.2
      | none => true

/-- A group that never ends, from a position on. -/
def Endless (g : Group) (d : Document) (hi pos : Nat) : Prop :=
  ∀ fuel, g.endsF d hi fuel 0 pos = false

/-- The group goes on from a state inside of its table, behind a byte before the end or without one
at the end. -/
theorem onward?_eq_some {state pos : Nat} {next : Nat × Nat}
    (h : g.onward? d hi state pos = some next) :
    state < g.data.size ∧
      (pos < hi ∧ d.byteBefore hi pos ≠ none ∧ next.2 = pos + 1 ∨
        d.byteBefore hi pos = none ∧ next.2 = pos) := by
  unfold onward? at h
  split at h
  · rename_i hin
    refine ⟨?_, ?_⟩
    · refine Decidable.byContradiction fun hge => ?_
      rw [slot, Array.getD_eq_getD_getElem?, Array.getElem?_eq_none (Nat.not_lt.1 hge)] at hin
      simp at hin
    · split at h
      · obtain ⟨x, -, rfl⟩ := Option.map_eq_some_iff.1 h
        exact Or.inr ⟨‹_›, rfl⟩
      · rename_i b hbyte
        obtain ⟨x, -, rfl⟩ := Option.map_eq_some_iff.1 h
        refine Or.inl ⟨Document.lt_of_byteBefore hbyte, ?_, rfl⟩
        rw [hbyte]
        exact Option.some_ne_none b
  · cases h

/-! ### What a tokenizer reads -/

/-- Following an edge goes on where the group does. -/
theorem reads_follow (d : Document) (hi : Nat) (grammar : Grammar) (fuel : Nat) {state : Nat}
    (pos : Nat) (current : Option Nat) (t : Token) (hin : (g.slot state).testBit g.id = true) :
    match g.onward? d hi state pos with
    | some next => ∃ t', (g.follow grammar fuel state current).reads d hi pos t =
        (g.scanF grammar fuel next.1 current).reads d hi next.2 t'
    | none => (g.follow grammar fuel state current).reads d hi pos t = .ok t := by
  rw [onward?, if_pos hin, follow, Scan.reads]
  cases hbyte : d.byteBefore hi pos with
  | none =>
      dsimp only
      cases hedge : g.edgeForEnd (g.slot (state + 1)) (g.slot (state + 2)) with
      | none => rfl
      | some target => exact ⟨t, rfl⟩
  | some b =>
      dsimp only
      cases hedge : g.edgeFor (g.slot (state + 1)) (g.slot (state + 2)) b.toNat with
      | none => rfl
      | some target =>
          dsimp only [Option.map_some]
          rw [Scan.reads]
          -- by the end of the range the stream stops there, which is one byte on as well
          split
          · have hlt := Document.lt_of_byteBefore hbyte
            obtain rfl : hi = pos + 1 := by omega
            exact ⟨_, rfl⟩
          · exact ⟨_, rfl⟩

/-- The group reads a token if it ends within its steps, and else it gives up. -/
theorem reads_scanF (g : Group) (d : Document) (hi : Nat) (grammar : Grammar) (fuel state : Nat)
    (current : Option Nat) (pos : Nat) (t : Token) :
    (g.endsF d hi fuel state pos = true ∧
        ∃ t', (g.scanF grammar fuel state current).reads d hi pos t = .ok t') ∨
      g.endsF d hi fuel state pos = false ∧
        (g.scanF grammar fuel state current).reads d hi pos t = .error .limit := by
  induction fuel generalizing state current pos t with
  | zero => exact Or.inr ⟨rfl, rfl⟩
  | succ fuel ih =>
      rw [scanF_succ, endsF]
      by_cases hin : (g.slot state).testBit g.id = true
      · rw [if_pos hin]
        have hfollow : ∀ current t,
            (g.endsF d hi (fuel + 1) state pos = true ∧
              ∃ t', (g.follow grammar fuel state current).reads d hi pos t = .ok t') ∨
            g.endsF d hi (fuel + 1) state pos = false ∧
              (g.follow grammar fuel state current).reads d hi pos t = .error .limit := by
          intro current t
          have key := reads_follow d hi grammar fuel pos current t hin
          rw [endsF]
          split at key
          · obtain ⟨t', heq⟩ := key
            rw [heq]
            exact ih _ _ _ _
          · exact Or.inl ⟨rfl, t, key⟩
        cases g.acceptedTerm grammar state current with
        | none => exact hfollow _ t
        | some term => exact hfollow _ _
      · have hnone : g.onward? d hi state pos = none := if_neg hin
        rw [if_neg hin, hnone]
        exact Or.inl ⟨rfl, t, rfl⟩

/-! ### Enough steps -/

/-- A run that ends within some steps ends within more of them. -/
theorem endsF_succ {fuel state pos : Nat} (h : g.endsF d hi fuel state pos = true) :
    g.endsF d hi (fuel + 1) state pos = true := by
  induction fuel generalizing state pos with
  | zero => cases h
  | succ fuel ih =>
      rw [endsF] at h ⊢
      split at h
      · exact ih h
      · rfl

/-- A run that ends within `fuel` steps, and not within fewer, ends within `steps` if these are as
many as the bytes left and the states not in `seen`.  The induction is on the steps; `seen` are the
states that the run has passed at the end of the input.  None of them comes up again, since the run
does not end from them within the steps that are left. -/
theorem endsF_of_least (steps : Nat) {fuel state pos : Nat} {seen : List Nat}
    (hends : g.endsF d hi fuel state pos = true)
    (hleast : ∀ n < fuel, g.endsF d hi n state pos = false) (hnodup : seen.Nodup)
    (hseen : ∀ x ∈ seen, x < g.data.size ∧ g.endsF d hi fuel x pos = false)
    (hended : seen ≠ [] → d.byteBefore hi pos = none)
    (hsteps : hi - pos + g.data.size + 2 ≤ steps + seen.length) :
    g.endsF d hi steps state pos = true := by
  induction steps generalizing fuel state pos seen with
  | zero =>
      have hlength : seen.length ≤ (List.range g.data.size).length :=
        hnodup.length_le_of_subset fun x hx => List.mem_range.2 (hseen x hx).1
      rw [List.length_range] at hlength
      omega
  | succ steps ih =>
      obtain ⟨fuel, rfl⟩ : ∃ n, fuel = n + 1 := by
        cases fuel with
        | zero => cases hends
        | succ fuel => exact ⟨fuel, rfl⟩
      cases hnext : g.onward? d hi state pos with
      | none => rw [endsF, hnext]
      | some next =>
          have hstep : ∀ n, g.endsF d hi (n + 1) state pos = g.endsF d hi n next.1 next.2 := by
            intro n
            rw [endsF, hnext]
          have hshorter : ∀ n < fuel, g.endsF d hi n next.1 next.2 = false := fun n hn =>
            hstep n ▸ hleast (n + 1) (Nat.succ_lt_succ hn)
          have hnew : state ∉ seen := fun hmem =>
            Bool.false_ne_true ((hseen state hmem).2.symm.trans hends)
          have hpassed : ∀ x ∈ state :: seen, x < g.data.size ∧ g.endsF d hi fuel x pos = false := by
            refine List.forall_mem_cons.2 ⟨⟨(onward?_eq_some hnext).1, hleast fuel (by omega)⟩, ?_⟩
            refine fun x hx => ⟨(hseen x hx).1, Bool.eq_false_iff.2 fun h => ?_⟩
            exact Bool.false_ne_true ((hseen x hx).2.symm.trans (endsF_succ h))
          rw [hstep] at hends ⊢
          rcases (onward?_eq_some hnext).2 with ⟨hlt, hbyte, hpos⟩ | ⟨hbyte, hpos⟩
          · -- before the end no state was passed over there
            obtain rfl : seen = [] := Decidable.byContradiction fun hne => hbyte (hended hne)
            refine ih hends hshorter List.nodup_nil (fun x hx => absurd hx List.not_mem_nil)
              (fun hne => absurd rfl hne) ?_
            rw [List.length_nil] at hsteps ⊢
            omega
          · rw [← hpos] at hpassed hbyte
            refine ih hends hshorter (List.nodup_cons.2 ⟨hnew, hnodup⟩) hpassed (fun _ => hbyte) ?_
            rw [List.length_cons]
            omega

/-- **A run that ends takes no more steps than a tokenizer has.** -/
theorem endsF_enough {fuel state pos : Nat} (h : g.endsF d hi fuel state pos = true) :
    g.endsF d hi (hi - pos + g.data.size + 2) state pos = true := by
  have hsome : ∃ n, g.endsF d hi n state pos = true := ⟨fuel, h⟩
  refine endsF_of_least _ (Nat.find_spec hsome)
    (fun n hn => Bool.eq_false_iff.2 (Nat.find_min hsome hn)) List.nodup_nil
    (fun x hx => absurd hx List.not_mem_nil) (fun hne => absurd rfl hne) ?_
  rw [List.length_nil]

/-- **A tokenizer gives up exactly if its group never ends**, and else it reads a token. -/
theorem reads_scan (grammar : Grammar) (pos : Nat) (t : Token) :
    (g.Endless d hi pos ∧ (g.scan grammar).reads d hi pos t = .error .limit) ∨
      ¬ g.Endless d hi pos ∧ ∃ t', (g.scan grammar).reads d hi pos t = .ok t' := by
  rcases reads_scanF g d hi grammar (hi - pos + g.data.size + 2) 0 none pos t with
    ⟨hends, hread⟩ | ⟨hends, hread⟩
  · exact Or.inr ⟨fun hnever => Bool.false_ne_true ((hnever _).symm.trans hends), hread⟩
  · refine Or.inl ⟨fun fuel => Bool.eq_false_iff.2 fun h => ?_, hread⟩
    exact Bool.false_ne_true (hends.symm.trans (endsF_enough h))

end Group

end IncrementalLR
