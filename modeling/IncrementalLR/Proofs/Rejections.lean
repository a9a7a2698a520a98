/-
**What a builder rejects.**

A build fails in one way only: at a record that it cannot make a node of.  The check of a flat
sequence of slots fails in the same way.

Main results:

* `Tree.buildFrom_error`, `Tree.build_error` — **building a tree fails only on records that fit
  nowhere**.
-/

import IncrementalLR.Tree.Build

set_option relaxedAutoImplicit false
set_option autoImplicit false

namespace IncrementalLR

/-- The error of a record that fits nowhere. -/
def ParseError.IsRecord (e : ParseError) : Prop := ∃ size, e = .invalidRecord size

theorem ParseError.IsRecord.isSyntax {e : ParseError} (h : e.IsRecord) : e.isSyntax = false := by
  obtain ⟨size, rfl⟩ := h
  rfl

namespace Builder

theorem takeMarker_error {d : BuildPlan} {parentStart : Nat} {cs : List (Nat × Tree)} {b : Builder}
    {e : ParseError} (h : takeMarker d parentStart cs b = .error e) : e.IsRecord := by
  unfold takeMarker at h
  dsimp only at h
  split at h
  · split at h
    · cases h
    · cases h
      exact ⟨_, rfl⟩
  · split at h
    · cases h
    · cases h
      exact ⟨_, rfl⟩

theorem takeFlat_error {d : BuildPlan} {parentStart minPos : Nat} {cs : List (Nat × Tree)}
    {b : Builder} {e : ParseError} (h : takeFlat d parentStart minPos cs b = .error e) :
    e.IsRecord := by
  unfold takeFlat at h
  dsimp only at h
  split at h
  · cases h
  · split at h
    · exact takeMarker_error h
    · cases h

theorem typeOf_error {d : BuildPlan} {id : Int} {e : ParseError} (h : d.typeOf id = .error e) :
    e.IsRecord := by
  unfold BuildPlan.typeOf at h
  split at h
  · cases h
  · cases h
    exact ⟨_, rfl⟩

/-- Taking a node and taking the children of one fail only on records that fit nowhere. -/
theorem take_error (d : BuildPlan) (fuel : Nat) :
    (∀ parentStart minPos inRepeat depth cs b e,
      takeNodeF d fuel parentStart minPos inRepeat depth cs b = .error e → e.IsRecord) ∧
    ∀ p minPos f b e, takeChildrenF d fuel p minPos f b = .error e → e.IsRecord := by
  induction fuel with
  | zero =>
      refine ⟨?_, ?_⟩
      · intro _ _ _ _ _ _ _ h
        cases h
      · intro _ _ _ _ _ h
        cases h
  | succ fuel ih =>
      refine ⟨?_, ?_⟩
      · intro parentStart minPos inRepeat depth cs b e h
        rw [takeNodeF] at h
        dsimp only at h
        split at h
        · exact takeMarker_error h
        · split at h
          · cases h
            exact ⟨_, rfl⟩
          · rcases bind_error h with h | ⟨ty, -, h⟩
            · exact typeOf_error h
            · split at h
              · cases h
              · rcases bind_error h with h | ⟨r, -, h⟩
                · exact ih.2 _ _ _ _ _ h
                · cases h
      · intro p minPos f b e h
        rw [takeChildrenF] at h
        dsimp only at h
        split at h
        · cases h
        · split at h
          · exact ih.2 _ _ _ _ _ h
          · split at h
            · rcases bind_error h with h | ⟨r, -, h⟩
              · exact takeFlat_error h
              · exact ih.2 _ _ _ _ _ h
            · rcases bind_error h with h | ⟨r, -, h⟩
              · exact ih.1 _ _ _ _ _ _ _ h
              · exact ih.2 _ _ _ _ _ h

theorem takeAllF_error (d : BuildPlan) (fuel : Nat) (cs : List (Nat × Tree)) (b : Builder)
    {e : ParseError} (h : takeAllF d fuel cs b = .error e) : e.IsRecord := by
  induction fuel generalizing cs b with
  | zero => cases h
  | succ fuel ih =>
      rw [takeAllF] at h
      split at h
      · cases h
      · rcases bind_error h with h | ⟨r, -, h⟩
        · exact (take_error d _).1 _ _ _ _ _ _ _ h
        · exact ih _ _ h

end Builder

/-- Building a tree fails only on records that fit nowhere. -/
theorem Tree.buildFrom_error {d : BuildPlan} {r : Reader} {e : ParseError}
    (h : Tree.buildFrom d r = .error e) : e.IsRecord := by
  unfold Tree.buildFrom at h
  split at h
  · cases h
    exact ⟨_, rfl⟩
  · rcases bind_error h with h | ⟨cs, -, h⟩
    · exact Builder.takeAllF_error d _ _ _ h
    · cases h

theorem checkRecords_error {limit pos : Nat} {outer : List Enclosing} {rs : List Record}
    {e : ParseError} (h : checkRecords limit pos outer rs = .error e) : e.IsRecord := by
  fun_induction checkRecords limit pos outer rs with
  | case1 => cases h
  | case2 => cases h
  | case3 pos outer r rest hpos outer' hsize ih => exact ih h
  | case4 =>
      cases h
      exact ⟨_, rfl⟩
  | case5 pos outer r rest hpos outer' hsize hfits ih => exact ih h

theorem recordsOk_error {slots : List Int} {limit : Nat} {e : ParseError}
    (h : recordsOk slots limit = .error e) : e.IsRecord := by
  unfold recordsOk at h
  split at h
  · cases h
    exact ⟨_, rfl⟩
  · exact checkRecords_error h

/-- **Building a tree from slots fails only on records that fit nowhere**, too. -/
theorem Tree.build_error {d : BuildPlan} {slots : List Int} {e : ParseError}
    (h : Tree.build d slots = .error e) : e.IsRecord := by
  rcases bind_error h with h | ⟨_, -, h⟩
  · exact recordsOk_error h
  · exact Tree.buildFrom_error h

end IncrementalLR
