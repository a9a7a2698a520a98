/-
**Frames that cut records.**

The frames of a stack tell how many records there were when they were put there.  What was stored
since then is a forest by its sizes, whichever frame one starts from, so a reduction that takes
some symbols finds a forest to count.

Its node goes in front of that forest.  It may also go below records that stand for themselves, and
then does not count them; if there are more of those than the symbol has records, it goes below the
frame, and the newest of the older records moves up in its place.

Main definitions:

* `Cut` — frames that cut records into forests.

Main results:

* `Sized.insert`, `Cut.insert` — **a node over the records of a symbol**, in front of them or below
  single ones.
-/

import IncrementalLR.Proofs.Nesting
import IncrementalLR.Proofs.Sizes

set_option relaxedAutoImplicit false
set_option autoImplicit false

namespace IncrementalLR

/-- The records since a frame was put on its stack are a forest. -/
def Frame.Cuts (f : Frame) (rs : List Record) : Prop :=
  ∃ new old, rs = new ++ old ∧ f.bufferPos = 4 * old.length ∧ Sized Record.IsNote new

/-- Frames, newest first, that cut records into forests. -/
structure Cut (fs : List Frame) (rs : List Record) : Prop where
  whole : Sized Record.IsNote rs
  frames : ∀ f ∈ fs, f.Cuts rs
  sorted : fs.Pairwise fun f older => older.bufferPos ≤ f.bufferPos

/-- A node over the records `seg`, as far as these are not single ones at the front, below which it
is put. -/
theorem Sized.insert {tail rest seg new old : List Record} {r : Record}
    (htail : ∀ c ∈ tail, c.IsSingle) (hsplit : tail ++ rest = new ++ old)
    (hnew : Sized Record.IsNote new) (hbegin : seg <+: new) (hseg : Sized Record.IsNote seg)
    (hsize : r.size = 4 * ((seg.length - tail.length : Nat) + 1)) :
    ∃ new' old', tail ++ r :: rest = new' ++ old' ∧ old'.length = old.length ∧
      Sized Record.IsNote new' := by
  have hsingles : Sized Record.IsNote tail := .of_singles htail
  rcases List.append_eq_append_iff.1 hsplit with ⟨front, rfl, rfl⟩ | ⟨back, rfl, rfl⟩
  · -- all single records are new, and the node is as well
    obtain ⟨inner, outer, rfl, hinner, hlength⟩ : ∃ inner outer, front = inner ++ outer ∧
        Sized Record.IsNote inner ∧ inner.length = seg.length - tail.length := by
      obtain ⟨more, hmore⟩ := hbegin
      rcases List.append_eq_append_iff.1 hmore with ⟨more', rfl, rfl⟩ | ⟨inner, rfl, rfl⟩
      · exact ⟨[], front, rfl, .nil, by simp⟩
      · exact ⟨inner, more, rfl, hsingles.of_append hseg, by simp⟩
    have houter : Sized Record.IsNote outer := hinner.of_append (hsingles.of_append hnew)
    refine ⟨tail ++ r :: (inner ++ outer), old, by simp, rfl, hsingles.append ?_⟩
    exact .node (by omega) hinner houter
  · cases back with
    | nil =>
        -- the node is the oldest of the new records
        refine ⟨new ++ [r], rest, by simp, by simp, hnew.append (.root ?_ .nil)⟩
        have hle := hbegin.length_le
        simp only [List.append_nil] at hsize
        simp only [List.length_nil]
        omega
    | cons c back =>
        -- the node is below all new records, and pushes a single one up to them
        refine ⟨new ++ [c], back ++ r :: rest, by simp, by simp; omega, hnew.append ?_⟩
        exact .single (htail c (by simp)) .nil

namespace Cut

variable {fs : List Frame} {rs : List Record}

/-- More records in front. -/
theorem absorb {seg : List Record} (h : Cut fs rs) (hseg : Sized Record.IsNote seg) :
    Cut fs (seg ++ rs) := by
  refine ⟨hseg.append h.whole, fun f hf => ?_, h.sorted⟩
  obtain ⟨new, old, rfl, hpos, hnew⟩ := h.frames f hf
  exact ⟨seg ++ new, old, by simp, hpos, hseg.append hnew⟩

/-- A frame after all records. -/
theorem push {f : Frame} (h : Cut fs rs) (hpos : f.bufferPos = 4 * rs.length) :
    Cut (f :: fs) rs := by
  refine ⟨h.whole, List.forall_mem_cons.2 ⟨⟨[], rs, rfl, hpos, .nil⟩, h.frames⟩, ?_⟩
  refine List.pairwise_cons.2 ⟨fun older holder => ?_, h.sorted⟩
  obtain ⟨new, old, rfl, holdPos, -⟩ := h.frames older holder
  rw [List.length_append] at hpos
  omega

theorem drop (n : Nat) (h : Cut fs rs) : Cut (fs.drop n) rs :=
  ⟨h.whole, fun f hf => h.frames f (List.mem_of_mem_drop hf),
    h.sorted.sublist (List.drop_sublist n fs)⟩

/-- Another newest record of the same size. -/
theorem replace {e e' : Record} (h : Cut fs (e :: rs)) (hsize : e'.size = e.size) :
    Cut fs (e' :: rs) := by
  refine ⟨h.whole.replace hsize, fun f hf => ?_, h.sorted⟩
  obtain ⟨new, old, heq, hpos, hnew⟩ := h.frames f hf
  cases new with
  | nil =>
      refine ⟨[], e' :: rs, rfl, ?_, .nil⟩
      rw [hpos, ← List.nil_append old, ← heq]
      rfl
  | cons c new =>
      obtain ⟨rfl, rfl⟩ := List.cons.inj heq
      exact ⟨e' :: new, old, rfl, hpos, hnew.replace hsize⟩

/-- The records of the newest symbol. -/
theorem focus (h : Cut fs rs) :
    ∃ seg below, rs = seg ++ below ∧ topSlots fs = 4 * below.length ∧ Sized Record.IsNote seg := by
  cases fs with
  | nil => exact ⟨rs, [], by simp, rfl, h.whole⟩
  | cons f fs => exact h.frames f List.mem_cons_self

/-- No frame was put on the stack after the newest one. -/
theorem bufferPos_le (h : Cut fs rs) : ∀ f ∈ fs, f.bufferPos ≤ topSlots fs := by
  cases fs with
  | nil => simp
  | cons f fs =>
      obtain ⟨holder, -⟩ := List.pairwise_cons.1 h.sorted
      exact List.forall_mem_cons.2 ⟨Nat.le_refl _, holder⟩

/-- **A node over the records of the newest symbol**, in front of them or below single ones. -/
theorem insert {tail rest seg below : List Record} {r : Record} (h : Cut fs (tail ++ rest))
    (htail : ∀ c ∈ tail, c.IsSingle) (hsplit : tail ++ rest = seg ++ below)
    (htop : topSlots fs = 4 * below.length) (hseg : Sized Record.IsNote seg)
    (hsize : r.size = 4 * ((seg.length - tail.length : Nat) + 1)) :
    Cut fs (tail ++ r :: rest) := by
  -- the records of the newest symbol are among those of every other one
  have hinsert : ∀ new old : List Record, tail ++ rest = new ++ old → old.length ≤ below.length →
      Sized Record.IsNote new → ∃ new' old', tail ++ r :: rest = new' ++ old' ∧
        old'.length = old.length ∧ Sized Record.IsNote new' := by
    intro new old heq hle hnew
    have hlength := congrArg List.length (hsplit.symm.trans heq)
    simp only [List.length_append] at hlength
    have hseg' : seg <+: tail ++ rest := ⟨below, hsplit.symm⟩
    have hnew' : new <+: tail ++ rest := ⟨old, heq.symm⟩
    have hbegin : seg <+: new := List.prefix_of_prefix_length_le hseg' hnew' (by omega)
    exact Sized.insert htail heq hnew hbegin hseg hsize
  refine ⟨?_, fun f hf => ?_, h.sorted⟩
  · obtain ⟨new', old', heq, hlength, hnew'⟩ :=
      hinsert (tail ++ rest) [] (by simp) (Nat.zero_le _) h.whole
    obtain rfl := List.eq_nil_of_length_eq_zero hlength
    rwa [heq, List.append_nil]
  · obtain ⟨new, old, heq, hpos, hnew⟩ := h.frames f hf
    have hle := h.bufferPos_le f hf
    obtain ⟨new', old', heq', hlength, hnew'⟩ := hinsert new old heq (by omega) hnew
    exact ⟨new', old', heq', by omega, hnew'⟩

end Cut

end IncrementalLR
