/-
**Stacks whose records nest.**

The records of a stack are tidy when its frames divide them into forests, each over the text of its
symbol.  Tokens that were skipped since the last token that counts come after all of them: their
records end later than the text that a reduction covers, which is why a reduction puts its node
below them.

Main definitions:

* `Stack.Tidy` — the invariant.

Main results:

* `Stack.Tidy.pushRecord`, `Stack.Tidy.pushSymbol` — records and symbols at the end of the text;
* `Stack.Tidy.cover` — the node of a reduction;
* `Stack.Tidy.reduceSome`, `Stack.Tidy.reduceEmpty` — reductions keep stacks tidy, as far as the
  late records allow it.
-/

import IncrementalLR.Proofs.Nesting
import IncrementalLR.Proofs.Storing

set_option relaxedAutoImplicit false
set_option autoImplicit false

namespace IncrementalLR

namespace Stack

/-! ### The invariant -/

/-- The records nest: frames divide those up to the reduce position into forests, and the later ones
are a forest over the skipped text. -/
structure Tidy (g : Setting) (s : Stack) : Prop where
  lo_le : g.lo ≤ s.reducePos
  reduce_le : s.reducePos ≤ s.pos
  pos_le : s.pos ≤ g.hi
  stops : ∀ r ∈ s.records, r.stop ≤ s.pos
  base_eq : s.base = 4 * s.frozen.flatten.length
  pieces : ∀ piece ∈ s.frozen, piece ≠ []
  nested : Nested Record.IsMark s.reducePos s.pos s.late
  framed : Framed g.lo s.reducePos s.frames.items s.body

namespace Tidy

variable {g : Setting} {s s' : Stack}

theorem bufferLength_eq (h : Tidy g s) : s.bufferLength = 4 * s.records.length := by
  have hbase := h.base_eq
  have hsize := s.own.size_eq
  unfold bufferLength records
  rw [List.length_append]
  omega

/-- All records together, divided by the frames. -/
theorem whole (h : Tidy g s) : Framed g.lo s.pos s.frames.items s.records := by
  rw [← late_append_body]
  exact h.framed.absorb h.nested

/-- Only positions, frames and records matter. -/
theorem congr (h : Tidy g s) (hreduce : s'.reducePos = s.reducePos) (hpos : s'.pos = s.pos)
    (hframes : s'.frames = s.frames) (hown : s'.own.items = s.own.items) (hbase : s'.base = s.base)
    (hfrozen : s'.frozen = s.frozen) : Tidy g s' := by
  have hrecords : s'.records = s.records := by
    unfold records
    rw [hown, hfrozen]
  have hlate : s'.late = s.late := by
    unfold late
    rw [hown, hreduce]
  have hbody : s'.body = s.body := by
    unfold body
    rw [hown, hreduce, hfrozen]
  constructor
  · exact hreduce ▸ h.lo_le
  · rw [hreduce, hpos]
    exact h.reduce_le
  · exact hpos ▸ h.pos_le
  · rw [hrecords, hpos]
    exact h.stops
  · rw [hbase, hfrozen]
    exact h.base_eq
  · exact hfrozen ▸ h.pieces
  · rw [hreduce, hpos, hlate]
    exact h.nested
  · rw [hreduce, hframes, hbody]
    exact h.framed

/-- A stack after a step that leaves the frozen pieces alone: `l` are its late records, `m` its own
ones before them. -/
theorem step (h : Tidy g s) (hbase : s'.base = s.base) (hfrozen : s'.frozen = s.frozen)
    (hlo : g.lo ≤ s'.reducePos) (hreduce : s'.reducePos ≤ s'.pos) (hpos : s'.pos ≤ g.hi)
    (hstops : ∀ r ∈ s'.records, r.stop ≤ s'.pos) {l m : List Record}
    (hown : s'.own.items = l ++ m) (hl : ∀ r ∈ l, signedPos s'.reducePos < r.stop)
    (hm : ∀ r ∈ m.head?, r.stop ≤ signedPos s'.reducePos)
    (hnested : Nested Record.IsMark s'.reducePos s'.pos l)
    (hframed : Framed g.lo s'.reducePos s'.frames.items (m ++ s.frozen.flatten)) : Tidy g s' := by
  obtain ⟨hlate, hbody⟩ := late_body_of_split hown hl hm
  refine ⟨hlo, hreduce, hpos, hstops, ?_, ?_, ?_, ?_⟩
  · rw [hbase, hfrozen]
    exact h.base_eq
  · exact hfrozen ▸ h.pieces
  · rw [hlate]
    exact hnested
  · rw [hbody, hfrozen]
    exact hframed

/-- A stack after a step that leaves no record late. -/
theorem of_whole (h : Tidy g s) (hbase : s'.base = s.base) (hfrozen : s'.frozen = s.frozen)
    (hlo : g.lo ≤ s'.reducePos) (hreduce : s'.reducePos ≤ s'.pos) (hpos : s'.pos ≤ g.hi)
    (hstops : ∀ r ∈ s'.records, r.stop ≤ s'.pos)
    (hhead : ∀ r ∈ s'.own.items.head?, r.stop ≤ signedPos s'.reducePos)
    (hframed : Framed g.lo s'.reducePos s'.frames.items s'.records) : Tidy g s' := by
  refine h.step hbase hfrozen hlo hreduce hpos hstops (l := []) rfl (by simp) hhead ?_ ?_
  · exact .nil (by omega)
  · rw [← hfrozen]
    exact hframed

/-! ### Pushing records and frames -/

/-- A record of its own over the text up to a new position. -/
theorem pushRecord (h : Tidy g s) (hhi : g.hi ≤ maxWord) {r : Record} {stop : Nat}
    (hstop : stop ≤ g.hi) (hr : Nested Record.IsMark s.pos stop [r]) (hend : r.stop = stop) :
    Tidy g (Stack.pushRecord { s with pos := stop } r) := by
  have hle : (s.pos : Int) ≤ stop := hr.le
  have hlo := h.lo_le
  have hreduce := h.reduce_le
  have hsigned : signedPos s.reducePos = s.reducePos := signedPos_of_word (by omega)
  have hstops : ∀ x ∈ (Stack.pushRecord { s with pos := stop } r).records, x.stop ≤ stop := by
    intro x hx
    rcases List.mem_cons.1 hx with rfl | hx
    · exact Int.le_of_eq hend
    · exact Int.le_trans (h.stops x hx) hle
  by_cases hlate : s.reducePos < stop
  · -- the new record is a late one
    refine h.step rfl rfl hlo (by simp only [Stack.pushRecord]; omega) hstop hstops
      (l := r :: s.late) (m := s.own.items.dropWhile fun r => signedPos s.reducePos < r.stop)
      ?_ ?_ s.head_dropWhile_le (hr.append h.nested) h.framed
    · have key := List.takeWhile_append_dropWhile
        (p := fun r : Record => decide (signedPos s.reducePos < r.stop)) (l := s.own.items)
      simp only [Stack.pushRecord, Pile.items_push, List.cons_append]
      rw [Stack.late, key]
    · intro x hx
      rcases List.mem_cons.1 hx with rfl | hx
      · simp only [Stack.pushRecord]
        omega
      · exact (mem_late hx : signedPos s.reducePos < x.stop)
  · -- no text was skipped, and the new record takes none
    obtain rfl : stop = s.pos := by omega
    obtain heq : s.reducePos = s.pos := by omega
    refine h.of_whole rfl rfl hlo hreduce hstop hstops ?_ ?_
    · intro x hx
      obtain rfl : r = x := by simpa [Stack.pushRecord] using hx
      simp only [Stack.pushRecord]
      omega
    · have key := h.whole.absorb hr
      rw [← heq] at key
      exact key

/-- A symbol that starts after all records. -/
theorem pushFrame (h : Tidy g s) (hbase : s'.base = s.base) (hfrozen : s'.frozen = s.frozen)
    {f : Frame} {l : List Record} (hframes : s'.frames.items = f :: s.frames.items)
    (hown : s'.own.items = l ++ s.own.items) (hslots : f.bufferPos = s.bufferLength)
    (hwhole : Framed g.lo f.start s.frames.items s.records)
    (hseg : Nested Record.IsMark f.start s'.reducePos l) (hreduce : s'.reducePos ≤ s'.pos)
    (hle : s.pos ≤ s'.pos) (hpos : s'.pos ≤ g.hi) (hstops : ∀ r ∈ l, r.stop ≤ s'.pos)
    (hhead : ∀ r ∈ s'.own.items.head?, r.stop ≤ signedPos s'.reducePos) : Tidy g s' := by
  have hrecords : s'.records = l ++ s.records := by
    unfold records
    rw [hown, hfrozen, List.append_assoc]
  have hlo : (g.lo : Int) ≤ s'.reducePos := Int.le_trans hwhole.nested.le hseg.le
  refine h.of_whole hbase hfrozen (by omega) hreduce hpos ?_ hhead ?_
  · intro r hr
    rw [hrecords] at hr
    rcases List.mem_append.1 hr with hr | hr
    · exact hstops r hr
    · have := h.stops r hr
      omega
  · rw [hframes, hrecords]
    exact hwhole.push (hslots.trans h.bufferLength_eq) hseg

/-- A symbol that starts where the stack stands, after all skipped text. -/
theorem pushSymbol (h : Tidy g s) (hhi : g.hi ≤ maxWord) (hbase : s'.base = s.base)
    (hfrozen : s'.frozen = s.frozen) {state : Nat} {l : List Record}
    (hframes : s'.frames.items = ⟨state, s.pos, s.bufferLength⟩ :: s.frames.items)
    (hown : s'.own.items = l ++ s.own.items) (heq : s'.reducePos = s'.pos) (hpos : s'.pos ≤ g.hi)
    (hl : Nested Record.IsMark s.pos s'.pos l) (hstops : ∀ r ∈ l, r.stop ≤ s'.pos) :
    Tidy g s' := by
  have hle : (s.pos : Int) ≤ s'.pos := hl.le
  refine h.pushFrame hbase hfrozen hframes hown rfl h.whole (by rw [heq]; exact hl)
    (Nat.le_of_eq heq) (Int.ofNat_le.1 hle) hpos hstops ?_
  intro r hr
  rw [heq, signedPos_of_word (Nat.le_trans hpos hhi)]
  have hmem := List.mem_of_mem_head? hr
  rw [hown] at hmem
  rcases List.mem_append.1 hmem with hmem | hmem
  · exact hstops r hmem
  · exact Int.le_trans (h.stops r (List.mem_append_left _ hmem)) hle

/-- The reduce position may catch up with the position. -/
theorem catchUp (h : Tidy g s) (hhi : g.hi ≤ maxWord) : Tidy g { s with reducePos := s.pos } := by
  have hlo := h.lo_le
  have hreduce := h.reduce_le
  have hpos := h.pos_le
  have hsigned : signedPos s.pos = s.pos := signedPos_of_word (by omega)
  refine h.of_whole rfl rfl (Nat.le_trans hlo hreduce) (Nat.le_refl _) hpos h.stops ?_ h.whole
  intro r hr
  rw [hsigned]
  exact h.stops r (List.mem_append_left _ (List.mem_of_mem_head? hr))

/-- Symbols may be forgotten. -/
theorem dropFrames (h : Tidy g s) (n : Nat) : Tidy g { s with frames := s.frames.drop n } :=
  ⟨h.lo_le, h.reduce_le, h.pos_le, h.stops, h.base_eq, h.pieces, h.nested, h.framed.drop n⟩

theorem skipTo (h : Tidy g s) {stop : Nat} (hle : s.pos ≤ stop) (hstop : stop ≤ g.hi) :
    Tidy g { s with pos := stop } := by
  have hle' : (s.pos : Int) ≤ stop := Int.ofNat_le.2 hle
  refine ⟨h.lo_le, Nat.le_trans h.reduce_le hle, hstop, ?_, h.base_eq, h.pieces, ?_, h.framed⟩
  · intro r hr
    exact Int.le_trans (h.stops r hr) hle'
  · exact h.nested.mono hle'

/-! ### Marks and errors -/

protected theorem freeze (h : Tidy g s) (id : Nat) : Tidy g (s.freeze id) := by
  have hrecords := records_freeze s id
  unfold Stack.freeze finished at hrecords ⊢
  simp only at hrecords ⊢
  cases hpiece : s.own.items.dropWhile fun r => signedPos s.reducePos < r.stop with
  | nil => exact h
  | cons r rest =>
      rw [hpiece] at hrecords
      have hbody : s.body = r :: rest ++ s.frozen.flatten := by
        unfold body
        rw [hpiece]
      -- the late records are all that the stack keeps for itself
      obtain ⟨hlate, hbody'⟩ := late_body_of_split (l := s.late) (m := [])
        (s := { s with own := .ofItems s.late, base := s.base + 4 * (r :: rest).length,
                       frozen := (r :: rest) :: s.frozen, parent := some id })
        (by simp) (fun x hx => (mem_late hx : signedPos s.reducePos < x.stop)) (by simp)
      refine ⟨h.lo_le, h.reduce_le, h.pos_le, ?_, ?_, ?_, ?_, ?_⟩
      · rw [hrecords]
        exact h.stops
      · have hbase := h.base_eq
        simp only [List.flatten_cons, List.length_append]
        omega
      · intro piece hmem
        rcases List.mem_cons.1 hmem with rfl | hmem
        · simp
        · exact h.pieces piece hmem
      · exact hlate ▸ h.nested
      · refine hbody' ▸ ?_
        rw [List.nil_append, List.flatten_cons, ← hbody]
        exact h.framed

theorem mark (h : Tidy g s) (hhi : g.hi ≤ maxWord) (id : Int) :
    Tidy g (s.mark id Record.lookAheadSize) := by
  have hsigned : signedPos s.pos = s.pos := signedPos_of_word (Nat.le_trans h.pos_le hhi)
  unfold Stack.mark
  split
  · exact h
  · refine h.pushRecord hhi h.pos_le (.skip rfl (.nil (Int.le_refl _))) hsigned

theorem raiseLookAhead (h : Tidy g s) (hhi : g.hi ≤ maxWord) (pos : Nat) :
    Tidy g (s.raiseLookAhead pos) := by
  unfold Stack.raiseLookAhead
  split
  · exact (h.mark hhi _).congr rfl rfl rfl rfl rfl rfl
  · exact h

/-! ### Storing nodes -/

/-- Late records that are no nodes are marks. -/
theorem isMark_of_noneLate (h : Tidy g s) (hnone : s.NoneLate) : ∀ r ∈ s.late, r.IsMark :=
  h.nested.clear_of_not_isNode hnone

/-- If no node is late, all records end by the reduce position. -/
theorem whole_of_noneLate (h : Tidy g s) (hnone : s.NoneLate) :
    Framed g.lo s.reducePos s.frames.items s.records := by
  rw [← late_append_body]
  exact h.framed.absorb (.of_clear (Int.le_refl _) (h.isMark_of_noneLate hnone))

/-- Nothing is late if no text was skipped. -/
theorem late_of_eq (h : Tidy g s) (hhi : g.hi ≤ maxWord) (heq : s.reducePos = s.pos) :
    s.late = [] := by
  refine List.eq_nil_iff_forall_not_mem.2 fun r hr => ?_
  have hlt := mem_late hr
  rw [heq, signedPos_of_word (Nat.le_trans h.pos_le hhi)] at hlt
  have hle := h.stops r (late_append_body s ▸ List.mem_append_left _ hr)
  omega

theorem noneLate_of_eq (h : Tidy g s) (hhi : g.hi ≤ maxWord) (heq : s.reducePos = s.pos) :
    s.NoneLate := by
  unfold NoneLate
  rw [h.late_of_eq hhi heq]
  simp

protected theorem storeError (h : Tidy g s) (hhi : g.hi ≤ maxWord) : Tidy g s.storeError := by
  have hsigned : signedPos s.pos = s.pos := signedPos_of_word (Nat.le_trans h.pos_le hhi)
  rcases storeError_cases s with heq | heq
  · rw [heq]
    exact h
  · rw [heq]
    refine h.pushRecord hhi h.pos_le ?_ hsigned
    exact .root (Int.natCast_nonneg errorTerm) rfl hsigned hsigned (.nil (Int.le_refl _))

/-- A record may be merged with a new one before it. -/
theorem mayMerge_pushRecord (h : Tidy g s) (r : Record) : (s.pushRecord r).mayMerge = true := by
  obtain ⟨seg, below, hsplit, hslots, _, _⟩ := h.whole.focus
  have hlength := h.bufferLength_eq
  rw [hsplit, List.length_append] at hlength
  unfold Stack.mayMerge Pile.top?
  cases hhead : s.frames.items.head? with
  | none => simp [Stack.pushRecord, hhead]
  | some f =>
      simp only [topSlots, hhead, Option.map_some, Option.getD_some] at hslots
      simp only [Stack.pushRecord, hhead, Option.all_some]
      refine decide_eq_true ?_
      simp only [Stack.bufferLength, Pile.size_push] at hlength ⊢
      omega

theorem stops_extendLast (h : Tidy g s) {e : Record} {rest : List Record}
    (hown : s.own.items = e :: rest) (stop : Nat) {bound : Int} (hstop : signedPos stop ≤ bound)
    (hle : s.pos ≤ bound) : ∀ r ∈ (s.extendLast stop).records, r.stop ≤ bound := by
  have hstops := h.stops
  unfold records at hstops ⊢
  rw [hown, List.cons_append, List.forall_mem_cons] at hstops
  rw [own_extendLast hown, extendLast_of_cons hown, List.cons_append, List.forall_mem_cons]
  exact ⟨hstop, fun r hr => Int.le_trans (hstops.2 r hr) hle⟩

/-- Extending the error before, as far as it belongs to the newest symbol. -/
theorem framed_extendLast (h : Tidy g s) {hi : Int} {stop : Nat} {e : Record} {rest : List Record}
    (hframed : Framed g.lo hi s.frames.items s.records) (hown : s.own.items = e :: rest)
    (hnode : e.isNode = true) (hmay : s.mayMerge = true) (hle : hi ≤ stop)
    (hword : stop ≤ maxWord) : Framed g.lo stop s.frames.items (s.extendLast stop).records := by
  have hrecords : s.records = e :: (rest ++ s.frozen.flatten) := by
    unfold records
    rw [hown, List.cons_append]
  have hlength := h.bufferLength_eq
  rw [hrecords, List.length_cons] at hlength
  have hslots : topSlots s.frames.items < 4 * ((rest ++ s.frozen.flatten).length + 1) := by
    unfold mayMerge Pile.top? at hmay
    unfold topSlots
    cases hhead : s.frames.items.head? with
    | none =>
        simp only [Option.map_none, Option.getD_none]
        omega
    | some f =>
        simp only [hhead, Option.all_some, decide_eq_true_eq] at hmay
        simp only [Option.map_some, Option.getD_some]
        omega
  have hmark : ¬ e.IsMark := by
    intro hmark
    simp only [Record.isNode, decide_eq_true_eq] at hnode
    unfold Record.IsMark Record.lookAheadSize at hmark
    omega
  have key := (hrecords ▸ hframed).extend hslots hmark hle
  rw [extendLast_of_cons hown]
  simp only [records, Pile.items_push, Pile.items_drop, hown, List.drop_succ_cons, List.drop_zero,
    signedPos_of_word hword]
  exact key

/-- A node over the records of the symbols that a reduction takes stays on top if no node is
late. -/
theorem appendCover_of_noneLate (h : Tidy g s) (hhi : g.hi ≤ maxWord) (n : Nat) {r : Record}
    (hid : 0 ≤ r.id) (hstart : r.start = topStart g.lo (s.frames.items.drop n))
    (hstop : r.stop = s.reducePos)
    (hsize : r.size = (s.bufferLength - topSlots (s.frames.items.drop n) + 4 : Nat))
    (hnone : s.NoneLate) : Tidy g { s.appendNode r true with frames := s.frames.drop n } := by
  have hreduce := h.reduce_le
  have hpos := h.pos_le
  have hlength := h.bufferLength_eq
  have hsigned : signedPos s.reducePos = s.reducePos := signedPos_of_word (by omega)
  have hitems := own_appendNode hnone (hstop.trans hsigned.symm) true
  have hrecords : (s.appendNode r true).records = r :: s.records := by
    unfold records
    rw [hitems, frozen_appendNode]
    rfl
  obtain ⟨seg, below, hsplit, hslots, hseg, hreplace⟩ :=
    ((h.whole_of_noneLate hnone).drop n).focus
  rw [hsplit, List.length_append] at hlength
  refine h.of_whole (by simp) (by simp) (by simpa using h.lo_le) (by simpa using hreduce)
    (by simpa using hpos) ?_ ?_ ?_
  · show ∀ x ∈ (s.appendNode r true).records, x.stop ≤ (s.appendNode r true).pos
    rw [hrecords, pos_appendNode, List.forall_mem_cons]
    exact ⟨by omega, h.stops⟩
  · intro x hx
    simp only [hitems, List.head?_cons, Option.mem_some_iff] at hx
    subst hx
    simp only [reducePos_appendNode]
    omega
  · show Framed g.lo (s.appendNode r true).reducePos (s.frames.items.drop n)
      (s.appendNode r true).records
    rw [hrecords, reducePos_appendNode, hsplit]
    exact hreplace _ (r :: seg) (.root hid (by omega) hstart hstop hseg)

/-- It goes below the late records otherwise, and does not count them. -/
theorem appendCover_late (h : Tidy g s) (hhi : g.hi ≤ maxWord) (n : Nat) {r : Record}
    (hid : 0 ≤ r.id) (hstart : r.start = topStart g.lo (s.frames.items.drop n))
    (hstop : r.stop = s.reducePos)
    (hsize : r.size = (s.bufferLength - topSlots (s.frames.items.drop n) + 4 : Nat))
    (hlate : ¬ s.NoneLate) (htop : s.own.top?.all (·.isError) = false) :
    Tidy g { s.appendNode r true with frames := s.frames.drop n } := by
  have hreduce := h.reduce_le
  have hpos := h.pos_le
  have hlength := h.bufferLength_eq
  have hsigned : signedPos s.reducePos = s.reducePos := signedPos_of_word (by omega)
  have hskipped : s.reducePos ≠ s.pos := fun heq => hlate (h.noneLate_of_eq hhi heq)
  have hsignedPos : signedPos s.pos = s.pos := signedPos_of_word (by omega)
  have hitems := own_appendNode_late hlate (hstop.trans hsigned.symm) (by omega) htop
  obtain ⟨seg, below, hsplit, hslots, hseg, hreplace⟩ := (h.framed.drop n).focus
  rw [← late_append_body, hsplit, List.length_append, List.length_append] at hlength
  refine h.step (by simp) (by simp) (by simpa using h.lo_le) (by simpa using hreduce)
    (by simpa using hpos) ?_ hitems ?_ ?_ ?_ ?_
  · show ∀ x ∈ (s.appendNode r true).records, x.stop ≤ (s.appendNode r true).pos
    have hrest := h.stops
    rw [← late_append_body, List.forall_mem_append] at hrest
    unfold records
    rw [hitems, frozen_appendNode, pos_appendNode, List.append_assoc, List.forall_mem_append,
      List.cons_append, List.forall_mem_cons]
    exact ⟨hrest.1, by simp only; omega, hrest.2⟩
  · intro x hx
    simpa using mem_late hx
  · intro x hx
    simp only [List.head?_cons, Option.mem_some_iff] at hx
    subst hx
    simp only [reducePos_appendNode]
    omega
  · simpa using h.nested
  · show Framed g.lo (s.appendNode r true).reducePos (s.frames.items.drop n) _
    rw [reducePos_appendNode, List.cons_append]
    have hbody : (s.own.items.dropWhile fun c => signedPos s.reducePos < c.stop) ++
        s.frozen.flatten = seg ++ below := hsplit
    rw [hbody]
    exact hreplace _ (_ :: seg) (.root hid (by simp only; omega) hstart hstop hseg)

/-- The node of a reduction, over the records of the symbols that it takes. -/
theorem cover (h : Tidy g s) (hhi : g.hi ≤ maxWord) (n term : Nat)
    (hok : s.NoneLate ∨ s.own.top?.all (·.isError) = false) :
    Tidy g { s.addNode term (topStart g.lo (s.frames.items.drop n)) s.reducePos
      (s.bufferLength - topSlots (s.frames.items.drop n) + 4) true
        with frames := s.frames.drop n } := by
  have hlo := h.lo_le
  have hreduce := h.reduce_le
  have hpos := h.pos_le
  have hsigned : signedPos s.reducePos = s.reducePos := signedPos_of_word (by omega)
  rcases addNode_cases s term (topStart g.lo (s.frames.items.drop n)) s.reducePos
      (s.bufferLength - topSlots (s.frames.items.drop n) + 4) true with
    ⟨_, heq⟩ | ⟨e, rest, hown, herror, hnode, hmay, heq⟩ | heq
  · rw [heq]
    exact h.dropFrames n
  · -- an error is on top, so no node is late, and the error ends by the reduce position
    rw [heq]
    have hnone : s.NoneLate := by
      refine hok.resolve_right ?_
      simp [Pile.top?, hown, herror]
    have hframed := h.framed_extendLast (h.whole_of_noneLate hnone) hown hnode hmay
      (Int.le_refl _) (by omega)
    have hitems := own_extendLast hown s.reducePos
    have hstops := h.stops_extendLast hown s.reducePos (by omega) (Int.le_refl s.pos)
    rw [extendLast_of_cons hown] at hitems hframed hstops ⊢
    refine h.of_whole rfl rfl hlo hreduce hpos hstops ?_ (hframed.drop n)
    intro r hr
    simp only [Pile.items_push, List.head?_cons, Option.mem_some_iff] at hr
    exact hr ▸ Int.le_refl _
  · rw [heq]
    have hle : topStart g.lo (s.frames.items.drop n) ≤ s.reducePos := by
      obtain ⟨seg, below, _, _, hseg, _⟩ := (h.framed.drop n).focus
      have := hseg.le
      omega
    have hsignedStart := signedPos_of_word (by omega :
      topStart g.lo (s.frames.items.drop n) ≤ maxWord)
    by_cases hnone : s.NoneLate
    · exact h.appendCover_of_noneLate hhi n (Int.natCast_nonneg term) hsignedStart hsigned rfl hnone
    · exact h.appendCover_late hhi n (Int.natCast_nonneg term) hsignedStart hsigned rfl hnone
        (hok.resolve_left hnone)

/-! ### Reducing -/

theorem beginReduce (h : Tidy g s) (hhi : g.hi ≤ maxWord) (p : Parser) (term : Nat) :
    Tidy g (s.beginReduce p term) := by
  unfold Stack.beginReduce
  simp only
  split
  · exact (h.raiseLookAhead hhi s.pos).congr rfl rfl rfl rfl rfl rfl
  · exact h.congr rfl rfl rfl rfl rfl rfl

theorem reduceSome (h : Tidy g s) (hhi : g.hi ≤ maxWord) {p : Parser} (word : Nat) {env : Env}
    (hrow : (p.tables.row s.state).isSkipped = false) (htracker : p.tracker = none)
    (henv : env.start = g.lo)
    (hok : (ActionWord.value word < p.minRepeat || ActionWord.isRepeat word) = true →
      s.NoneLate ∨ s.own.top?.all (·.isError) = false) : Tidy g (s.reduceSome p word env).1 := by
  unfold Stack.reduceSome
  simp only [changeContext_of_none htracker, hrow, henv]
  split
  · rename_i hstores
    have hcover := h.cover hhi (popCount word) (ActionWord.value word) (hok hstores)
    exact hcover.congr rfl rfl rfl rfl rfl rfl
  · exact (h.dropFrames (popCount word)).congr rfl rfl rfl rfl rfl rfl

theorem reduceEmpty (h : Tidy g s) (hhi : g.hi ≤ maxWord) {p : Parser} {term : Nat} (env : Env)
    (htracker : p.tracker = none) (hnone : s.NoneLate)
    (hlate : p.minRepeat ≤ term → s.late = []) : Tidy g (s.reduceEmpty p term 4 env).1 := by
  have hreduce := h.reduce_le
  have hpos := h.pos_le
  have hsigned : signedPos s.reducePos = s.reducePos := signedPos_of_word (by omega)
  unfold Stack.reduceEmpty
  simp only [changeContext_of_none htracker]
  split
  · -- the new frame stands after all records, so an error before it is not extended
    rw [addNode_of_not_mayMerge (by simp [mayMerge, pushState, Pile.top?, Stack.bufferLength])]
    have hitems := own_appendNode (s := s.pushState (p.gotoState s.state term) s.reducePos)
      (r := ⟨term, signedPos s.reducePos, signedPos s.reducePos, 4⟩) hnone rfl true
    refine h.pushFrame (f := ⟨s.state, s.reducePos, s.bufferLength⟩)
      (l := [⟨term, signedPos s.reducePos, signedPos s.reducePos, 4⟩]) (by simp [pushState])
      (by simp [pushState]) (by simp [pushState]) hitems rfl (h.whole_of_noneLate hnone) ?_
      (by simpa [pushState] using hreduce) (by simp [pushState]) (by simpa [pushState] using hpos)
      ?_ ?_
    · rw [reducePos_appendNode]
      exact .root (Int.natCast_nonneg term) rfl hsigned hsigned (.nil (Int.le_refl _))
    · simp only [List.mem_singleton, forall_eq, pos_appendNode, pushState]
      omega
    · intro x hx
      obtain rfl := Option.some.inj ((congrArg List.head? hitems).symm.trans (Option.mem_def.1 hx))
      simp [pushState]
  · have hlate := hlate (by omega)
    refine h.pushFrame (f := ⟨s.state, s.reducePos, s.bufferLength⟩) (l := []) rfl rfl rfl rfl rfl
      (h.whole_of_noneLate hnone) (.nil (Int.le_refl _)) hreduce (Nat.le_refl _) hpos (by simp) ?_
    intro x hx
    refine s.head_dropWhile_le x ?_
    have key := List.takeWhile_append_dropWhile
      (p := fun r : Record => decide (signedPos s.reducePos < r.stop)) (l := s.own.items)
    unfold late at hlate
    rw [hlate, List.nil_append] at key
    rw [key]
    exact hx

end Tidy

end Stack

end IncrementalLR
