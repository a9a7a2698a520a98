/-
**The look-ahead marks of a stack.**

A stack marks how far the text was looked at whenever it is looked at further, so the marked
positions fall from the newest record to the oldest.  Nodes that sink below a mark do not change
that, since they are no marks, and neither does anything else that a move stores.

Before a tree is built the last position is marked as well, unless the newest record is such a mark
already.  A builder reads that mark first, so that the positions along its trail fall from the very
first record.

Main definitions:

* `Stack.heights` — the look-ahead positions of a stack;
* `Stack.Falling` — they fall.

Main results:

* `Stack.heights_addNode`, `Stack.heights_changeContext` — what is stored in between does not count;
* `Stack.Move.falling`, `Stack.Reached.falling` — **whatever moves lead to a stack, its look-ahead
  positions fall**;
* `Stack.Falling.close` — and so they do along the trail of the builder.
-/

import IncrementalLR.Proofs.Storing
import IncrementalLR.Proofs.Trails

set_option relaxedAutoImplicit false
set_option autoImplicit false

namespace IncrementalLR

/-- If the marked positions fall, so do those along a trail. -/
theorem falling_trailFrom {la : Nat} {rs : List Record}
    (h : (la :: rs.filterMap Record.lookAhead?).Pairwise (· ≥ ·)) :
    (trailFrom la rs).Pairwise (fun x y => y.1 ≤ x.1) ∧ ∀ x ∈ trailFrom la rs, x.1 ≤ la := by
  induction rs generalizing la with
  | nil => exact ⟨.nil, by simp [trailFrom]⟩
  | cons c rest ih =>
      have hnext : (c.lookAhead?.getD la :: rest.filterMap Record.lookAhead?).Pairwise (· ≥ ·) ∧
          c.lookAhead?.getD la ≤ la := by
        cases hc : c.lookAhead? with
        | none =>
            rw [List.filterMap_cons_none hc] at h
            exact ⟨h, Nat.le_refl _⟩
        | some n =>
            rw [List.filterMap_cons_some hc] at h
            exact ⟨h.of_cons, List.rel_of_pairwise_cons h List.mem_cons_self⟩
      obtain ⟨hfalling, hbelow⟩ := ih hnext.1
      rw [trailFrom, List.pairwise_cons, List.forall_mem_cons]
      exact ⟨⟨hbelow, hfalling⟩, hnext.2, fun x hx => Nat.le_trans (hbelow x hx) hnext.2⟩

namespace Stack

/-! ### What is stored in between -/

/-- The look-ahead positions of a stack: the last one, and those that were marked, newest first. -/
def heights (s : Stack) : List Nat := s.lookAhead :: s.records.filterMap Record.lookAhead?

theorem heights_pushRecord (s : Stack) {r : Record} (h : r.lookAhead? = none) :
    (s.pushRecord r).heights = s.heights := by
  simp [heights, pushRecord, records, h]

theorem heights_appendNode (s : Stack) {r : Record} (h : 0 ≤ r.size) (sink : Bool) :
    (s.appendNode r sink).heights = s.heights := by
  unfold appendNode
  split
  · exact s.heights_pushRecord (Record.lookAhead?_of_node h)
  · have hnone : (sinkInto r s.own.items).filterMap Record.lookAhead? =
        s.own.items.filterMap Record.lookAhead? := by
      have hsplit := congrArg (List.filterMap Record.lookAhead?)
        (List.takeWhile_append_dropWhile (p := fun c : Record => decide (r.stop < c.stop))
          (l := s.own.items))
      rw [List.filterMap_append] at hsplit
      unfold sinkInto
      simp only
      split
      · rw [List.filterMap_append, List.filterMap_cons_none, hsplit]
        refine Record.lookAhead?_of_node ?_
        simp only
        omega
      · rw [List.filterMap_cons_none (Record.lookAhead?_of_node h)]
    simp only [heights, records, List.filterMap_append, hnone]

theorem heights_extendLast (s : Stack) (stop : Nat) : (s.extendLast stop).heights = s.heights := by
  unfold extendLast
  split
  · rename_i r rest hown
    simp [heights, records, hown, List.filterMap_cons, Record.lookAhead?]
  · rfl

@[simp] theorem heights_addNode (s : Stack) (term start stop size : Nat) (sink : Bool) :
    (s.addNode term start stop size sink).heights = s.heights := by
  rcases s.addNode_cases term start stop size sink with ⟨-, heq⟩ | ⟨e, rest, -, -, -, -, heq⟩ | heq
  · rw [heq]
  · rw [heq, heights_extendLast]
  · rw [heq, heights_appendNode]
    exact Int.natCast_nonneg size

@[simp] theorem heights_markContext (s : Stack) : s.markContext.heights = s.heights := by
  unfold markContext mark
  split
  · split
    · rfl
    · exact s.heights_pushRecord rfl
  · rfl

@[simp] theorem heights_changeContext (p : Parser) (change : ContextChange) (start : Nat)
    (s : Stack) (env : Env) : (s.changeContext p change start env).1.heights = s.heights := by
  obtain ⟨own, context, heq, hown⟩ := s.changeContext_eq p change start env
  rw [heq]
  rcases hown with rfl | ⟨id, rfl⟩
  · rfl
  · exact s.heights_pushRecord rfl

@[simp] theorem heights_storeError (s : Stack) : s.storeError.heights = s.heights :=
  s.heights_addNode ..

@[simp] theorem heights_freeze (s : Stack) (id : Nat) :
    (s.freeze id).heights = s.heights := by
  have hahead : (s.freeze id).lookAhead = s.lookAhead := by
    unfold freeze
    simp only
    split <;> rfl
  unfold heights
  rw [records_freeze, hahead]

@[simp] theorem heights_recordToken (p : Parser) (term start stop : Nat) (s : Stack) :
    (s.recordToken p term start stop).heights = s.heights := by
  unfold recordToken
  split
  · exact s.heights_pushRecord rfl
  · rfl

theorem heights_shift (p : Parser) (word term start stop : Nat) (s : Stack) (env : Env) :
    (s.shift p word term start stop env).1.heights = s.heights := by
  unfold shift
  split
  · rfl
  · split
    · simp only [heights_recordToken, heights_changeContext]
      rfl
    · simp only [heights_recordToken, heights_changeContext]
      split
      · split <;> rfl
      · rfl

theorem heights_insertToken (p : Parser) (term state : Nat) (s : Stack) (env : Env) :
    (s.insertToken p term state env).1.heights = s.heights :=
  (heights_changeContext ..).trans (heights_storeError _)

theorem heights_deleteToken (p : Parser) (term stop : Nat) (s : Stack) :
    (s.deleteToken p term stop).heights = s.heights := by
  refine (heights_addNode ..).trans ?_
  split
  · exact s.heights_addNode ..
  · rfl

theorem heights_restart (s : Stack) : s.restart.heights = s.heights := s.heights_storeError

/-- A reduction marks a position before anything else. -/
theorem heights_reduce (p : Parser) (word : Nat) (s : Stack) (env : Env) :
    (s.reduce p word env).1.heights = (s.beginReduce p (ActionWord.value word)).heights := by
  unfold reduce reduceEmpty reduceSome
  simp only
  split
  · rw [heights_changeContext]
    split
    · exact heights_addNode ..
    · rfl
  · rw [heights_changeContext]
    split
    · exact heights_addNode ..
    · rfl

/-! ### Marks -/

/-- The look-ahead positions of a stack fall, as long as they are signed numbers of 64 bits. -/
def Falling (s : Stack) : Prop :=
  s.lookAhead < 9223372036854775808 → s.heights.Pairwise (· ≥ ·)

namespace Falling

variable {s s' : Stack}

theorem congr (h : s.Falling) (heq : s'.heights = s.heights) : s'.Falling := by
  intro hlt
  rw [heq]
  exact h ((List.cons.inj heq).1 ▸ hlt)

/-- Raising the look-ahead position marks the one before. -/
theorem raise (h : s.Falling) (pos : Nat) : (s.raiseLookAhead pos).Falling := by
  unfold raiseLookAhead
  split
  · rename_i hhigher
    intro hlt
    have hlt' : s.lookAhead < 9223372036854775808 := Nat.lt_trans hhigher hlt
    have hold := h hlt'
    have habove : ∀ n ∈ s.heights, n ≤ pos := by
      refine List.forall_mem_cons.2 ⟨Nat.le_of_lt hhigher, fun n hn => ?_⟩
      exact Nat.le_trans (List.rel_of_pairwise_cons hold hn) (Nat.le_of_lt hhigher)
    unfold markLookAhead mark
    split
    · -- the position before is that of a mark that nothing was stored above of
      exact List.pairwise_cons.2 ⟨fun n hn => habove n (List.mem_cons_of_mem _ hn), hold.of_cons⟩
    · have hmark : ({ s.pushRecord ⟨signedPos s.lookAhead, signedPos s.pos, signedPos s.pos,
          Record.lookAheadSize⟩ with lookAhead := pos } : Stack).heights = pos :: s.heights := by
        simp [heights, records, pushRecord, Record.lookAhead?, signedPos_of_lt hlt']
      rw [hmark]
      exact List.pairwise_cons.2 ⟨habove, hold⟩
  · exact h

theorem beginReduce (h : s.Falling) (p : Parser) (term : Nat) :
    (s.beginReduce p term).Falling := by
  unfold Stack.beginReduce
  simp only
  split
  · exact (h.raise s.pos).congr rfl
  · exact h.congr rfl

theorem reduce (h : s.Falling) (p : Parser) (word : Nat) (env : Env) :
    (s.reduce p word env).1.Falling :=
  (h.beginReduce p _).congr (s.heights_reduce p word env)

theorem leaveRule (h : s.Falling) {p : Parser} {env : Env} {r : Stack × Env}
    (hr : s.leaveRule p env = (true, r)) : r.1.Falling := by
  obtain ⟨word, allowed, -, rfl⟩ := leaveRule_eq_true hr
  refine reduce (h.congr ?_) p _ env
  cases allowed with
  | true => rfl
  | false => exact s.heights_storeError

end Falling

/-- Every move keeps look-ahead positions falling. -/
theorem Move.falling {g : Setting} {ok : Guard} {s s' : Stack} (hm : Move g ok s s')
    (h : s.Falling) : s'.Falling := by
  cases hm with
  | split env => exact h.congr (s.heights_freeze _)
  | look => exact h.raise _
  | reduce => exact h.reduce _ _ _
  | shift => exact h.congr (heights_shift ..)
  | leave _ hr => exact h.leaveRule hr
  | insert => exact h.congr (heights_insertToken ..)
  | delete => exact h.congr (heights_deleteToken ..)
  | error => exact h.congr s.heights_storeError
  | restart => exact h.congr s.heights_restart

/-- **Whatever moves lead to a stack, its look-ahead positions fall.** -/
theorem Reached.falling {g : Setting} {ok : Guard} {s : Stack} (h : s.Reached g ok) :
    s.Falling := by
  induction h with
  | start => exact fun _ => List.pairwise_singleton _ _
  | move _ hm ih => exact hm.falling ih

/-! ### The last marks -/

/-- After marking, the newest record is a mark, and the positions still fall. -/
theorem Falling.markLookAhead {s : Stack} (h : s.Falling)
    (hlt : s.lookAhead < 9223372036854775808) :
    ∃ c rest, s.markLookAhead.records = c :: rest ∧ c.lookAhead?.isSome = true ∧
      (s.lookAhead :: s.markLookAhead.records.filterMap Record.lookAhead?).Pairwise (· ≥ ·) := by
  have hfalling := h hlt
  unfold Stack.markLookAhead mark
  split
  · rename_i htop
    unfold Pile.top? at htop
    cases hown : s.own.items with
    | nil => simp [hown] at htop
    | cons c rest =>
        refine ⟨c, rest ++ s.frozen.flatten, by rw [records, hown]; rfl, ?_, hfalling⟩
        simpa [hown, Record.lookAhead?] using htop
  · refine ⟨_, s.records, rfl, rfl, ?_⟩
    simp only [pushRecord, records, Pile.items_push, List.cons_append, List.filterMap_cons,
      Record.lookAhead?, if_true, signedPos_of_lt hlt, Int.toNat_natCast]
    exact List.pairwise_cons.2 ⟨List.forall_mem_cons.2
      ⟨Nat.le_refl _, fun n hn => List.rel_of_pairwise_cons hfalling hn⟩, hfalling⟩

/-- With the last position marked, the positions along the trail of a builder fall from it. -/
theorem Falling.close {s : Stack} (h : s.Falling) (hlt : s.lookAhead < 9223372036854775808)
    (p : Parser) :
    (trailFrom 0 (s.close p).records).Pairwise (fun x y => y.1 ≤ x.1) ∧
      ∀ x ∈ trailFrom 0 (s.close p).records, x.1 ≤ s.lookAhead := by
  have hcontext : (if p.tracker.any (·.strict) then s.markContext else s).heights = s.heights := by
    split
    · exact s.heights_markContext
    · rfl
  unfold Stack.close
  simp only
  generalize (if p.tracker.any (·.strict) then s.markContext else s) = x at hcontext
  obtain ⟨hahead, -⟩ := List.cons.inj hcontext
  have hx := h.congr hcontext
  rw [← hahead] at hlt ⊢
  split
  · -- the newest record is a mark, so it does not matter what a builder starts with
    obtain ⟨c, rest, hrecords, hsome, hfalling⟩ := hx.markLookAhead hlt
    obtain ⟨n, hn⟩ := Option.isSome_iff_exists.1 hsome
    have hsame : trailFrom 0 x.markLookAhead.records =
        trailFrom x.lookAhead x.markLookAhead.records := by
      rw [hrecords, trailFrom, trailFrom, hn]
      rfl
    rw [hsame]
    exact falling_trailFrom hfalling
  · obtain hzero : x.lookAhead = 0 := by omega
    rw [hzero]
    refine falling_trailFrom ?_
    rw [← hzero]
    exact hx hlt

end Stack

end IncrementalLR
