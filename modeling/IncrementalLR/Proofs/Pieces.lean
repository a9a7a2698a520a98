/-
**Records in pieces.**

A stack keeps its records in pieces, and a reader goes from one piece to the next.  Where one piece
ends and the next begins cannot be noticed: two readers that have the same records to read give the
same answers at every place, and the builder makes the same tree from both.

Main definitions:

* `Reader.Alike`, `Builder.Alike` — the same records are left to be read;
* `Builder.Agree` — outcomes that are the same but for the pieces.

Main results:

* `Builder.take_agree` — taking a node, and taking the children of one;
* `Tree.buildFrom_of_alike` — **the tree does not depend on the pieces**.
-/

import IncrementalLR.Proofs.Packing

set_option relaxedAutoImplicit false
set_option autoImplicit false

namespace IncrementalLR

namespace Reader

/-! ### Readers with the same records -/

/-- Two readers have the same records to read. -/
def Alike (r r' : Reader) : Prop := ∃ rs, r.Holds rs ∧ r'.Holds rs

/-- At the end there is no record, and reading on changes nothing. -/
theorem Holds.at_end {r : Reader} (h : r.Holds []) : r.record = default ∧ r.next.Holds [] := by
  obtain ⟨pos, current, older⟩ := r
  obtain ⟨hrecords, hpos, hopened, hpieces⟩ := h
  obtain ⟨rfl, hflat⟩ := List.append_eq_nil_iff.1 hrecords
  obtain rfl := hopened rfl
  obtain rfl : pos = 0 := hpos
  exact ⟨rfl, rfl, rfl, fun _ => rfl, hpieces⟩

namespace Alike

variable {r r' : Reader}

theorem pos_eq (h : r.Alike r') : r.pos = r'.pos := by
  obtain ⟨rs, hr, hr'⟩ := h
  rw [hr.pos_eq, hr'.pos_eq]

theorem record_eq (h : r.Alike r') : r.record = r'.record := by
  obtain ⟨rs, hr, hr'⟩ := h
  cases rs with
  | nil => rw [hr.at_end.1, hr'.at_end.1]
  | cons c rest => rw [hr.next.1, hr'.next.1]

theorem next (h : r.Alike r') : r.next.Alike r'.next := by
  obtain ⟨rs, hr, hr'⟩ := h
  cases rs with
  | nil => exact ⟨[], hr.at_end.2, hr'.at_end.2⟩
  | cons c rest => exact ⟨rest, hr.next.2, hr'.next.2⟩

end Alike

end Reader

namespace Builder

/-! ### Packing -/

/-- Two builders have the same records to read, with the same context and look-ahead. -/
structure Alike (b b' : Builder) : Prop where
  reader : b.reader.Alike b'.reader
  contextHash : b.contextHash = b'.contextHash
  lookAhead : b.lookAhead = b'.lookAhead

section Packing

variable {d : BuildPlan} {r r' : Reader} {b b' : Builder}

/-- Passing over a node stops at the same place, or not at all. -/
theorem passF_alike (stop fuel : Nat) (h : r.Alike r') (skip : Nat) :
    (passF d stop fuel r skip = none ∧ passF d stop fuel r' skip = none) ∨
      ∃ q q' skipped, q.Alike q' ∧ passF d stop fuel r skip = some (q, skipped) ∧
        passF d stop fuel r' skip = some (q', skipped) := by
  induction fuel generalizing r r' skip with
  | zero => exact Or.inr ⟨r, r', skip, h, rfl, rfl⟩
  | succ fuel ih =>
      rw [passF, passF, ← h.pos_eq, ← h.record_eq]
      split
      · exact Or.inr ⟨r, r', skip, h, rfl, rfl⟩
      · split
        · split
          · exact ih h.next _
          · exact Or.inl ⟨rfl, rfl⟩
        · exact ih h.next _

theorem scanF_alike {minPos minStart : Nat} {inRepeat : Int} (fuel : Nat) (h : r.Alike r')
    (whole complete : Run) :
    scanF d minPos minStart inRepeat fuel r whole complete =
      scanF d minPos minStart inRepeat fuel r' whole complete := by
  induction fuel generalizing r r' whole complete with
  | zero => rfl
  | succ fuel ih =>
      rw [scanF, scanF, ← h.pos_eq, ← h.record_eq]
      dsimp only
      split
      · rfl
      · split
        · exact ih h.next _ _
        · split
          · rfl
          · rcases passF_alike (d := d) (r.pos - r.record.size.toNat) r.pos h.next
              (if d.repeatFrom ≤ r.record.id then 4 else 0) with
              ⟨hq, hq'⟩ | ⟨q, q', n, hqq, hq, hq'⟩
            · rw [hq, hq']
            · rw [hq, hq']
              exact ih hqq _ _

theorem findRun_alike (h : r.Alike r') (minPos : Nat) (inRepeat : Int) :
    findRun d r minPos inRepeat = findRun d r' minPos inRepeat := by
  rw [findRun, findRun, ← h.pos_eq, ← h.record_eq, scanF_alike r.pos h]

protected theorem Alike.next (h : b.Alike b') : b.next.Alike b'.next :=
  ⟨h.reader.next, h.contextHash, h.lookAhead⟩

protected theorem Alike.mark (h : b.Alike b') (c : Record) : (b.mark c).Alike (b'.mark c) := by
  unfold Builder.mark
  split
  · exact ⟨h.reader, rfl, h.lookAhead⟩
  · split
    · exact ⟨h.reader, h.contextHash, rfl⟩
    · exact h

/-- Copying leaves the same slots and stops at the same place. -/
theorem copy_alike (base fuel : Nat) :
    (∀ (b b' : Builder) (index : Nat) (out : List Nat), b.Alike b' →
      (copyNodeF d base fuel b index out).1.Alike (copyNodeF d base fuel b' index out).1 ∧
        (copyNodeF d base fuel b index out).2 = (copyNodeF d base fuel b' index out).2) ∧
    ∀ (stop : Nat) (b b' : Builder) (index : Nat) (out : List Nat), b.Alike b' →
      (copyRunF d base fuel stop b index out).1.Alike (copyRunF d base fuel stop b' index out).1 ∧
        (copyRunF d base fuel stop b index out).2 = (copyRunF d base fuel stop b' index out).2 := by
  induction fuel with
  | zero =>
      refine ⟨?_, ?_⟩
      · intro b b' index out h
        exact ⟨h, rfl⟩
      · intro stop b b' index out h
        exact ⟨h, rfl⟩
  | succ fuel ih =>
      refine ⟨?_, ?_⟩
      · intro b b' index out h
        rw [copyNodeF, copyNodeF, ← h.reader.record_eq]
        dsimp only
        split
        · split
          · rw [← h.next.reader.pos_eq]
            obtain ⟨hinner, hout⟩ := ih.2 (b.next.reader.pos - (b.reader.record.size.toNat - 4))
              b.next b'.next index out h.next
            rw [hout]
            exact ⟨hinner, rfl⟩
          · exact ⟨h.next, rfl⟩
        · exact ⟨h.next.mark _, rfl⟩
      · intro stop b b' index out h
        rw [copyRunF, copyRunF, ← h.reader.pos_eq]
        split
        · exact ⟨h, rfl⟩
        · obtain ⟨hnode, hout⟩ := ih.1 b b' index out h
          dsimp only
          rw [hout]
          exact ih.2 stop _ _ _ _ hnode

theorem pack_alike (h : b.Alike b') (run : Run) (stop : Nat) :
    (pack d b run stop).1.Alike (pack d b' run stop).1 ∧
      (pack d b run stop).2 = (pack d b' run stop).2 := by
  rw [pack, pack, ← h.reader.pos_eq]
  obtain ⟨hcopied, hout⟩ := (copy_alike (d := d) run.start (2 * b.reader.pos + 2)).2
    (b.reader.pos - run.size) b b' (run.size - run.skip) [] h
  rw [hout]
  exact ⟨hcopied, rfl⟩

theorem collectF_alike (minPos fuel : Nat) (h : b.Alike b') (floor : Option Nat)
    (nodes : List Record) :
    (collectF d minPos fuel b floor nodes).1.Alike (collectF d minPos fuel b' floor nodes).1 ∧
      (collectF d minPos fuel b floor nodes).2 = (collectF d minPos fuel b' floor nodes).2 := by
  induction fuel generalizing b b' floor nodes with
  | zero => exact ⟨h, rfl⟩
  | succ fuel ih =>
      rw [collectF, collectF, ← h.reader.pos_eq, ← h.reader.record_eq]
      split
      · exact ⟨h, rfl⟩
      · split
        · exact ih h.next _ _
        · split
          · exact ⟨h, rfl⟩
          · exact ih h.next _ _

end Packing

/-! ### Taking nodes -/

/-- Two outcomes that are the same but for the pieces of what is left to be read. -/
def Agree {α : Type} : Except ParseError (α × Builder) → Except ParseError (α × Builder) → Prop
  | .ok x, .ok y => x.1 = y.1 ∧ x.2.Alike y.2
  | .error e, .error e' => e = e'
  | _, _ => False

section Taking

variable {d : BuildPlan} {b b' : Builder}

/-- Steps that agree, one after the other. -/
theorem Agree.bind {α β : Type} {x y : Except ParseError (α × Builder)}
    {f g : α × Builder → Except ParseError (β × Builder)} (h : Agree x y)
    (hfg : ∀ (a : α) (b b' : Builder), b.Alike b' → Agree (f (a, b)) (g (a, b'))) :
    Agree (x >>= f) (y >>= g) := by
  match x, y, h with
  | .ok (a, b), .ok (_, b'), ⟨rfl, hb⟩ => exact hfg a b b' hb
  | .error e, .error _, rfl => exact rfl

theorem takeMarker_agree (h : b.Alike b') (parentStart : Nat) (cs : List (Nat × Tree)) :
    Agree (takeMarker d parentStart cs b) (takeMarker d parentStart cs b') := by
  rw [takeMarker, takeMarker, ← h.reader.record_eq]
  split
  · split
    · exact ⟨rfl, h.next⟩
    · exact rfl
  · split
    · exact ⟨rfl, h.next.mark _⟩
    · exact rfl

theorem takeFlat_agree (h : b.Alike b') (parentStart minPos : Nat) (cs : List (Nat × Tree)) :
    Agree (takeFlat d parentStart minPos cs b) (takeFlat d parentStart minPos cs b') := by
  obtain ⟨hleft, hnodes⟩ := collectF_alike (d := d) minPos b.reader.pos h none []
  rw [takeFlat, takeFlat, ← h.reader.pos_eq]
  dsimp only
  rw [← hnodes]
  split
  · exact ⟨rfl, hleft⟩
  · rw [← hleft.reader.pos_eq]
    split
    · exact takeMarker_agree hleft _ _
    · exact ⟨rfl, hleft⟩

/-- Taking a node, and taking the children of one, do not depend on the pieces. -/
theorem take_agree (d : BuildPlan) (fuel : Nat) :
    (∀ parentStart minPos inRepeat depth cs b b', b.Alike b' →
      Agree (takeNodeF d fuel parentStart minPos inRepeat depth cs b)
        (takeNodeF d fuel parentStart minPos inRepeat depth cs b')) ∧
    ∀ p minPos f b b', b.Alike b' →
      Agree (takeChildrenF d fuel p minPos f b) (takeChildrenF d fuel p minPos f b') := by
  induction fuel with
  | zero =>
      refine ⟨?_, ?_⟩
      · intro _ _ _ _ _ b b' h
        exact ⟨rfl, h⟩
      · intro _ _ _ b b' h
        exact ⟨rfl, h⟩
  | succ fuel ih =>
      refine ⟨?_, ?_⟩
      · intro parentStart minPos inRepeat depth cs b b' h
        rw [takeNodeF, takeNodeF, ← h.reader.record_eq, ← h.reader.pos_eq, ← h.contextHash,
          ← h.lookAhead, ← findRun_alike h.reader]
        dsimp only
        split
        · exact takeMarker_agree h _ _
        · split
          · exact rfl
          · cases d.typeOf b.reader.record.id with
            | error e => exact rfl
            | ok ty =>
                simp only [bind, Except.bind]
                split
                · rename_i run _
                  obtain ⟨hpacked, htree⟩ := pack_alike (d := d) h run b.reader.record.stopPos
                  rw [htree]
                  exact ⟨rfl, hpacked⟩
                · exact (ih.2 _ _ _ _ _ h.next).bind fun _ _ _ hb => ⟨rfl, hb⟩
      · intro p minPos f b b' h
        rw [takeChildrenF, takeChildrenF, ← h.reader.record_eq, ← h.reader.pos_eq]
        dsimp only
        split
        · exact ⟨rfl, h⟩
        · split
          · exact ih.2 _ _ _ _ _ h.next
          · split
            · exact (takeFlat_agree h _ _ _).bind fun _ _ _ hb => ih.2 _ _ _ _ _ hb
            · exact (ih.1 _ _ _ _ _ _ _ h).bind fun _ _ _ hb => ih.2 _ _ _ _ _ hb

theorem takeAllF_alike (fuel : Nat) (cs : List (Nat × Tree)) (h : b.Alike b') :
    takeAllF d fuel cs b = takeAllF d fuel cs b' := by
  induction fuel generalizing cs b b' with
  | zero => rfl
  | succ fuel ih =>
      rw [takeAllF, takeAllF, ← h.reader.pos_eq]
      split
      · rfl
      · have key := (take_agree d (2 * b.reader.pos + 2)).1 d.start d.bufferStart (-1) 0 cs b b' h
        match hx : takeNodeF d (2 * b.reader.pos + 2) d.start d.bufferStart (-1) 0 cs b,
          hy : takeNodeF d (2 * b.reader.pos + 2) d.start d.bufferStart (-1) 0 cs b' with
        | .ok (cs, b), .ok (cs', b') =>
            rw [hx, hy] at key
            obtain ⟨rfl, hb⟩ := key
            exact ih cs hb
        | .error e, .error e' =>
            rw [hx, hy] at key
            exact congrArg _ key
        | .ok x, .error e =>
            rw [hx, hy] at key
            exact key.elim
        | .error e, .ok y =>
            rw [hx, hy] at key
            exact key.elim

end Taking

end Builder

/-- **The tree does not depend on the pieces** that its records are read from. -/
theorem Tree.buildFrom_of_alike (d : BuildPlan) {r r' : Reader} (h : r.Alike r') :
    Tree.buildFrom d r = Tree.buildFrom d r' := by
  have hbegin : Builder.Alike { reader := r } { reader := r' } := ⟨h, rfl, rfl⟩
  have hall := Builder.takeAllF_alike (d := d) (r.pos + 1) [] hbegin
  rw [Tree.buildFrom, Tree.buildFrom, ← h.pos_eq, hall]

end IncrementalLR
