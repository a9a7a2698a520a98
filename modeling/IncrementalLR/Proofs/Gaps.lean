/-
**Streams over several ranges.**

A stream over ranges hands out their text: the byte at its position, the bytes around it, and what
it moves over are those at the places of the text, and the gaps between the ranges do not count.
What carries this through all operations is that both windows of the stream lie inside of one range
each, so that places in a window are places in the text.

A stream can lose this.  Looking back into an earlier range, it cuts the window that it opens at the
end of the current range and not of the earlier one, so that the window shows the gap in between;
once it is read from, the bytes of the gap count.  And at the start of a first range that is empty
there is no byte, although the text may have some.

Main definitions:

* `Document.byteAt`, `Document.readIn` — the bytes of the text at a place, and the text between two
  positions;
* `Stream.Tracks` — a stream that hands out the text of ranges;
* `Stream.Operation`, `Stream.after`, `Stream.along` — operations one after the other, and what
  holds of each;
* `Stream.looksOverGap` — looking back with a window that shows a gap.

Main results:

* `Stream.Tracks.peek_eq`, `Stream.Tracks.advance_eq`, `Stream.Tracks.read_eq` — what a stream
  shows;
* `Stream.Operation.run_tracks` — what one operation keeps;
* `Parse.stream_shows_text` — **a stream that never looks over a gap hands out the text**;
* `Parse.stream_shows_gap` — a stream that has looked over one.
-/

import IncrementalLR.Proofs.Places
import IncrementalLR.Proofs.Progress

set_option relaxedAutoImplicit false
set_option autoImplicit false

namespace IncrementalLR

/-! ### The text of ranges -/

namespace Document

/-- The byte of the text of some ranges at a place; none outside of the text. -/
def byteAt (d : Document) (spans : List Span) (place : Int) : Option UInt8 :=
  if place < 0 then none else (positionsIn spans)[place.toNat]?.bind fun pos => d.bytes[pos]?

/-- The text between two positions, range by range. -/
def readIn (d : Document) (spans : List Span) (a b : Nat) : String :=
  String.join (spans.map fun r => d.read (max r.start a) (min r.stop b))

theorem byteAt_placeOf (d : Document) {spans : List Span} {r : Span} {pos : Nat}
    (h : Span.Ordered spans) (hr : r ∈ spans) (hpos : r.Holds pos) :
    d.byteAt spans (placeOf spans pos) = d.bytes[pos]? := by
  rw [byteAt, if_neg (by omega), Int.toNat_natCast, getElem?_placeOf h hr hpos]
  rfl

theorem byteAt_of_le (d : Document) {spans : List Span} {place : Nat}
    (h : (positionsIn spans).length ≤ place) : d.byteAt spans place = none := by
  rw [byteAt, if_neg (by omega), Int.toNat_natCast, List.getElem?_eq_none h]
  rfl

theorem read_of_le (d : Document) {a b : Nat} (h : b ≤ a) : d.read a b = "" := by
  have hempty : d.bytes.extract a b = #[] := Array.extract_empty_of_stop_le_start h
  rw [read, Text.ofSlice, hempty]
  rfl

end Document

/-- Texts that are all empty. -/
theorem join_of_empty {spans : List Span} {f : Span → String} (h : ∀ r ∈ spans, f r = "") :
    String.join (spans.map f) = "" := by
  induction spans with
  | nil => rfl
  | cons r rest ih =>
      obtain ⟨hr, hrest⟩ := List.forall_mem_cons.1 h
      rw [List.map_cons, String.join_cons, hr, ih hrest]
      rfl

/-- Texts of which those outside of one range are empty. -/
theorem join_eq_of_mem {spans : List Span} {f : Span → String} {r : Span} (hr : r ∈ spans)
    (h : Span.Ordered spans) (hbefore : ∀ x ∈ spans, x.stop ≤ r.start → f x = "")
    (hafter : ∀ x ∈ spans, r.stop ≤ x.start → f x = "") : String.join (spans.map f) = f r := by
  obtain ⟨before, after, rfl⟩ := List.append_of_mem hr
  have hfirst : String.join (before.map f) = "" :=
    join_of_empty fun x hx => hbefore x (List.mem_append_left _ hx) (h.stop_le x hx)
  have hrest : String.join (after.map f) = "" :=
    join_of_empty fun x hx =>
      hafter x (List.mem_append_right _ (List.mem_cons_of_mem _ hx)) (h.le_start x hx)
  rw [List.map_append, String.join_append, List.map_cons, String.join_cons, hfirst, hrest]
  simp

/-- Text inside of one range. -/
theorem Document.readIn_of_mem (d : Document) {spans : List Span} {r : Span} {a b : Nat}
    (h : Span.Ordered spans) (hr : r ∈ spans) (ha : r.start ≤ a) (hb : b ≤ r.stop) :
    d.readIn spans a b = d.read a b := by
  have hone := join_eq_of_mem (f := fun r => d.read (max r.start a) (min r.stop b)) hr h
    (fun x _ hx => d.read_of_le (by omega)) (fun x _ hx => d.read_of_le (by omega))
  rw [readIn, hone, Nat.max_eq_right ha, Nat.min_eq_right hb]

/-- Ranges that the text between two positions does not touch add nothing to it. -/
theorem Document.readIn_touched (d : Document) {spans : List Span} {a b : Nat}
    (h : Span.Ordered spans) :
    String.join (((spans.takeWhile fun r => decide (r.start < b)).filter fun r =>
      decide (a < r.stop)).map fun r => d.read (max r.start a) (min r.stop b)) =
      d.readIn spans a b := by
  unfold readIn
  induction spans with
  | nil => rfl
  | cons r rest ih =>
      have hrest := ih ⟨(List.forall_mem_cons.1 h.ends).2, (List.pairwise_cons.1 h.apart).2⟩
      by_cases hstart : r.start < b
      · rw [List.takeWhile_cons_of_pos (by simpa using hstart)]
        by_cases hstop : a < r.stop
        · rw [List.filter_cons_of_pos (by simpa using hstop), List.map_cons, List.map_cons,
            String.join_cons, String.join_cons, hrest]
        · rw [List.filter_cons_of_neg (by simpa using hstop), hrest, List.map_cons,
            String.join_cons, d.read_of_le (by omega)]
          simp
      · rw [List.takeWhile_cons_of_neg (by simpa using hstart)]
        refine (join_of_empty fun x hx => d.read_of_le ?_).symm
        rcases List.mem_cons.1 hx with rfl | hx
        · omega
        · have := h.ends r List.mem_cons_self
          have := (List.pairwise_cons.1 h.apart).1 x hx
          omega

/-! ### Windows inside of ranges -/

/-- A window that is empty or lies inside of one of the ranges. -/
def Window.Within (spans : List Span) (w : Window) : Prop :=
  w.size = 0 ∨ ∃ r ∈ spans, r.start ≤ w.pos ∧ w.pos + w.size ≤ r.stop

theorem Window.within_empty (spans : List Span) (pos : Nat) : Within spans ⟨pos, 0⟩ := Or.inl rfl

/-- The window that is opened at a position of a range and cut at its end. -/
theorem Document.within_window (d : Document) {spans : List Span} {r : Span} {pos : Nat}
    (hr : r ∈ spans) (hpos : r.Holds pos) :
    Window.Within spans ((d.window pos).cut (r.stop - pos)) := by
  refine Or.inr ⟨r, hr, hpos.1, ?_⟩
  have hsize : ((d.window pos).cut (r.stop - pos)).size ≤ r.stop - pos := Nat.min_le_right _ _
  have hat : ((d.window pos).cut (r.stop - pos)).pos = pos := rfl
  have := hpos.2
  omega

namespace Window.Within

variable {spans : List Span} {w : Window} {d : Document}

/-- Bytes in a window are bytes of the text. -/
theorem byteIn? (h : w.Within spans) (hspans : Span.Ordered spans) {i pos : Nat} (hi : i < w.size)
    (hpos : w.pos + i = pos) : d.byteIn? w i = d.byteAt spans (placeOf spans pos) := by
  rcases h with hzero | ⟨r, hr, hstart, hstop⟩
  · omega
  · rw [Document.byteIn?, if_pos hi, hpos, d.byteAt_placeOf hspans hr ⟨by omega, by omega⟩]

/-- Places in a window are as far apart as positions. -/
theorem placeOf_eq (h : w.Within spans) (hspans : Span.Ordered spans) {i j : Nat} (hi : i ≤ w.size)
    (hj : j < w.size) :
    (placeOf spans (w.pos + j) : Int) = placeOf spans (w.pos + i) + (j - i : Int) := by
  rcases h with hzero | ⟨r, hr, hstart, hstop⟩
  · omega
  · rcases Nat.le_total i j with hle | hle
    · have key := placeOf_sub (a := w.pos + i) (b := w.pos + j) hspans hr (by omega) (by omega)
        (by omega)
      omega
    · have key := placeOf_sub (a := w.pos + j) (b := w.pos + i) hspans hr (by omega) (by omega)
        (by omega)
      omega

/-- The position at a place of a window is in the text. -/
theorem getElem?_placeOf (h : w.Within spans) (hspans : Span.Ordered spans) {i : Nat}
    (hi : i < w.size) : (positionsIn spans)[placeOf spans (w.pos + i)]? = some (w.pos + i) := by
  rcases h with hzero | ⟨r, hr, hstart, hstop⟩
  · omega
  · exact IncrementalLR.getElem?_placeOf hspans hr ⟨by omega, by omega⟩

/-- Text that a window shows has no gap. -/
theorem readIn_eq (h : w.Within spans) (hspans : Span.Ordered spans) {a b : Nat} (hle : a ≤ b)
    (ha : w.pos ≤ a) (hb : b ≤ w.pos + w.size) : d.readIn spans a b = d.read a b := by
  rcases h with hzero | ⟨r, hr, hstart, hstop⟩
  · rw [d.read_of_le (by omega), Document.readIn]
    exact join_of_empty fun r _ => d.read_of_le (by omega)
  · exact d.readIn_of_mem hspans hr (by omega) (by omega)

end Window.Within

namespace Stream

/-! ### Streams that hand out the text -/

/-- A stream that hands out the text of ranges of a document. -/
structure Tracks (d : Document) (spans : List Span) (s : Stream) : Prop where
  doc : s.doc = d
  ranges : s.ranges.toList = spans
  stop : spans.getLast?.map Span.stop = some s.stop
  window : s.window.Within spans
  spare : s.spare.Within spans
  place : s.window.pos + s.offset = s.pos
  offset_le : s.offset ≤ s.window.size
  start_le : s.ranges.current.start ≤ s.pos
  le_stop : s.pos ≤ s.ranges.current.stop
  next : s.next = d.byteAt spans (placeOf spans s.pos)

variable {d : Document} {spans : List Span} {s : Stream}

/-- Reading the byte at a position of the current range; a place outside of the window does not
matter. -/
theorem tracks_fetch (hsize : d.HandsOut) (hspans : Span.Ordered spans)
    (hdoc : s.doc = d) (hranges : s.ranges.toList = spans)
    (hstop : spans.getLast?.map Span.stop = some s.stop) (hwindow : s.window.Within spans)
    (hspare : s.spare.Within spans) (hpos : s.ranges.current.Holds s.pos)
    (hplace : s.offset < s.window.size → s.window.pos + s.offset = s.pos) :
    s.fetch.Tracks d spans := by
  subst hdoc
  have hcur : s.ranges.current ∈ spans := hranges ▸ s.ranges.current_mem
  unfold fetch
  by_cases hopen : s.window.size ≤ s.offset
  · simp only [hopen, if_true]
    unfold openWindow
    by_cases hin : s.spare.contains s.pos = true
    · simp only [hin, if_true]
      simp only [Window.contains, Bool.and_eq_true, decide_eq_true_eq] at hin
      have hat : s.spare.pos + (s.pos - s.spare.pos) = s.pos := by omega
      exact ⟨rfl, hranges, hstop, hspare, hwindow, hat, by dsimp only; omega, hpos.1,
        Nat.le_of_lt hpos.2, hspare.byteIn? hspans (by omega) hat⟩
    · simp only [hin, Bool.false_eq_true, if_false]
      refine ⟨rfl, hranges, hstop, s.doc.within_window hcur hpos, hwindow, rfl, Nat.zero_le _,
        hpos.1, Nat.le_of_lt hpos.2, ?_⟩
      have := hpos.2
      rw [s.doc.byteAt_placeOf hspans hcur hpos]
      exact s.doc.byteIn?_window hsize (by omega)
  · have hat := hplace (by omega)
    simp only [hopen, if_false]
    exact ⟨rfl, hranges, hstop, hwindow, hspare, hat, by dsimp only; omega, hpos.1,
      Nat.le_of_lt hpos.2, hwindow.byteIn? hspans (by omega) hat⟩

/-- The stream at its end. -/
theorem tracks_finished (hspans : Span.Ordered spans) (hdoc : s.doc = d)
    (hranges : s.ranges.toList = spans) (hstop : spans.getLast?.map Span.stop = some s.stop)
    (hspare : s.spare.Within spans) : s.finished.Tracks d spans := by
  have hlist : s.ranges.toLast.toList = spans := by rw [Ranges.toList_toLast, hranges]
  have hend : s.ranges.toLast.current.stop = s.stop := by
    rw [← hranges, Ranges.getLast?_toList] at hstop
    exact Option.some.inj hstop
  have hle := hspans.ends _ (hlist ▸ s.ranges.toLast.current_mem)
  refine ⟨hdoc, hlist, hstop, Window.within_empty _ _, hspare, rfl, Nat.le_refl _, ?_, ?_, ?_⟩
  · exact Nat.le_trans hle (Nat.le_of_eq hend)
  · exact Nat.le_of_eq hend.symm
  · -- all of the text lies before the end
    refine (d.byteAt_of_le ?_).symm
    exact Nat.le_of_eq (placeOf_of_le fun r hr => hspans.le_last hstop hr).symm

/-- The stream at the start of its ranges.  A first range without text is no start for a text. -/
theorem tracks_start (hsize : d.HandsOut) {first : Span} {rest : List Span}
    (hspans : Span.Ordered (first :: rest))
    (hfirst : first.isEmpty = true → positionsIn (first :: rest) = []) :
    (start d (first :: rest)).Tracks d (first :: rest) := by
  have hstop : (first :: rest).getLast?.map Span.stop =
      some (Ranges.ofList (first :: rest)).toLast.current.stop := by
    have hlast := (Ranges.ofList (first :: rest)).getLast?_toList
    exact congrArg (Option.map Span.stop) hlast
  by_cases hempty : first.isEmpty = true
  · have hnone := hfirst hempty
    have hzero : first.stop - first.start = 0 := by
      simp only [Span.isEmpty, decide_eq_true_eq] at hempty
      omega
    have hle := hspans.ends first List.mem_cons_self
    have hbyte : d.byteAt (first :: rest) (placeOf (first :: rest) first.start) = none :=
      d.byteAt_of_le (by rw [hnone]; exact Nat.zero_le _)
    have hcut : (d.window first.start).cut (first.stop - first.start) = ⟨first.start, 0⟩ := by
      rw [hzero]
      simp [Window.cut, Document.window]
    simp only [start, fetch, openWindow, Window.contains, Ranges.ofList, hcut]
    refine ⟨rfl, rfl, hstop, Window.within_empty _ _, ?_, rfl, Nat.le_refl _, Nat.le_refl _, hle,
      ?_⟩
    · exact Window.within_empty _ _
    · exact hbyte.symm
  · have hlt : first.start < first.stop := by
      simp only [Span.isEmpty, decide_eq_true_eq] at hempty
      omega
    exact tracks_fetch hsize hspans rfl rfl hstop (Window.within_empty _ _)
      (Window.within_empty _ _) ⟨Nat.le_refl _, hlt⟩ (fun hoff => absurd hoff (Nat.not_lt_zero _))

/-- Looking back into an earlier range, at a byte that the spare window does not show, with a window
that reaches past the end of that range. -/
def looksOverGap (s : Stream) (offset : Int) : Bool :=
  (s.ranges.resolve s.pos offset false).any fun pos =>
    !s.spare.contains pos && s.ranges.before.any fun r =>
      r.start ≤ pos && pos < r.stop && r.stop < pos + (s.doc.window pos).size

namespace Tracks

/-- What is known of the token does not matter. -/
theorem withToken (h : s.Tracks d spans) (token : Token) : { s with token }.Tracks d spans :=
  ⟨h.doc, h.ranges, h.stop, h.window, h.spare, h.place, h.offset_le, h.start_le, h.le_stop, h.next⟩

theorem withSpare (h : s.Tracks d spans) {w : Window} (hw : w.Within spans) (token : Token) :
    { s with spare := w, token }.Tracks d spans :=
  ⟨h.doc, h.ranges, h.stop, h.window, hw, h.place, h.offset_le, h.start_le, h.le_stop, h.next⟩

theorem resolve_eq (h : s.Tracks d spans) (hspans : Span.Ordered spans)
    (hsmall : Span.Small spans) (offset : Int) :
    s.ranges.resolve s.pos offset false =
      if (placeOf spans s.pos : Int) + offset < 0 then none
      else (positionsIn spans)[((placeOf spans s.pos : Int) + offset).toNat]? := by
  have hranges := h.ranges
  subst hranges
  exact Ranges.resolve_eq hsmall hspans h.start_le h.le_stop offset

/-- Where looking at an offset ends is a position of the text, at the place of the offset. -/
theorem byteAt_of_resolve (h : s.Tracks d spans) (hspans : Span.Ordered spans)
    (hsmall : Span.Small spans) {offset : Int} {pos : Nat}
    (hpos : s.ranges.resolve s.pos offset false = some pos) :
    (∃ r ∈ spans, r.Holds pos) ∧
      d.byteAt spans (placeOf spans s.pos + offset) = d.bytes[pos]? := by
  rw [h.resolve_eq hspans hsmall] at hpos
  split at hpos
  · cases hpos
  · rename_i hge
    refine ⟨mem_positionsIn.1 (List.mem_of_getElem? hpos), ?_⟩
    rw [Document.byteAt, if_neg hge, hpos]
    rfl

/-- **Looking around shows the text.** -/
theorem peek_eq (h : s.Tracks d spans) (hspans : Span.Ordered spans) (hsmall : Span.Small spans)
    (hsize : d.HandsOut) (offset : Int) :
    (s.peek offset).1 = d.byteAt spans (placeOf spans s.pos + offset) := by
  have hdoc := h.doc
  have hranges := h.ranges
  subst hdoc
  unfold peek
  simp only
  split
  · rename_i hin
    simp only [Bool.and_eq_true, decide_eq_true_eq] at hin
    have hlt : ((s.offset : Int) + offset).toNat < s.window.size := by omega
    have hoff : ((((s.offset : Int) + offset).toNat : Nat) : Int) - s.offset = offset := by omega
    rw [h.window.byteIn? hspans hlt rfl, h.window.placeOf_eq hspans h.offset_le hlt, h.place, hoff]
  · cases hpos : s.ranges.resolve s.pos offset false with
    | none =>
        have hnone := h.resolve_eq hspans hsmall offset
        rw [hpos] at hnone
        unfold Document.byteAt
        split at hnone
        · rename_i hneg
          rw [if_pos hneg]
        · rename_i hge
          rw [if_neg hge, ← hnone]
          rfl
    | some pos =>
        obtain ⟨⟨r, hr, hold⟩, hbyte⟩ := h.byteAt_of_resolve hspans hsmall hpos
        simp only
        rw [hbyte]
        split
        · rename_i hin
          simp only [Window.contains, Bool.and_eq_true, decide_eq_true_eq] at hin
          have hat : s.spare.pos + (pos - s.spare.pos) = pos := by omega
          rw [Document.byteIn?, if_pos (by omega), hat]
        · refine s.doc.byteIn?_window hsize ?_
          -- the window is cut at the end of the current range or of a later one
          have hstop : pos < (s.ranges.onward pos).current.stop := by
            rw [← hranges, Ranges.toList] at hr hspans
            rcases List.mem_append.1 hr with hr | hr
            · have hlt : pos < s.ranges.current.stop := by
                have := hspans.stop_le r hr
                have := hspans.current
                have := hold.2
                omega
              rw [Ranges.onward, Ranges.seekForth_of_lt hlt]
              exact hlt
            · exact (Ranges.seekForth_holds hspans hr hold).2
          omega

/-- Looking around keeps the windows inside of ranges, unless it looks over a gap. -/
theorem peek (h : s.Tracks d spans) (hspans : Span.Ordered spans) (hsmall : Span.Small spans)
    {offset : Int} (hlook : s.looksOverGap offset = false) : (s.peek offset).2.Tracks d spans := by
  have hranges := h.ranges
  unfold Stream.peek
  simp only
  split
  · exact h.withToken _
  · cases hpos : s.ranges.resolve s.pos offset false with
    | none => exact h
    | some pos =>
        obtain ⟨⟨r, hr, hold⟩, -⟩ := h.byteAt_of_resolve hspans hsmall hpos
        simp only
        split
        · exact h.withToken _
        · rename_i hspare
          refine h.withSpare ?_ _
          have hmem := hr
          rw [← hranges, Ranges.toList] at hmem hspans
          rcases List.mem_append.1 hmem with hmem | hmem
          · -- an earlier range holds all of the window
            have hend : pos + (s.doc.window pos).size ≤ r.stop := by
              simp only [looksOverGap, hpos, Option.any_some, hspare, Bool.not_false,
                Bool.true_and, List.any_eq_false] at hlook
              have := hlook r (List.mem_reverse.1 hmem)
              simp only [Bool.and_eq_true, decide_eq_true_eq] at this
              have := hold.1
              have := hold.2
              omega
            refine Or.inr ⟨r, hr, hold.1, Nat.le_trans ?_ hend⟩
            exact Nat.add_le_add_left (Nat.min_le_left _ _) pos
          · refine s.doc.within_window ?_ (Ranges.seekForth_holds hspans hmem hold)
            have hlist : (s.ranges.onward pos).toList = spans :=
              (Ranges.toList_seekForth pos _ _ _).trans hranges
            exact hlist ▸ Ranges.current_mem _

/-- **Moving on counts places**, and stops at the end. -/
theorem advance (h : s.Tracks d spans) (hspans : Span.Ordered spans)
    (hsize : d.HandsOut) (n : Nat) :
    (s.advance n).Tracks d spans ∧
      (s.advance n).pos = (positionsIn spans)[placeOf spans s.pos + n]?.getD s.stop := by
  have hranges := h.ranges
  have hplaces : (Ranges.advance s.ranges.before s.ranges.current s.ranges.after s.pos n).map
      Prod.fst = (positionsIn spans)[placeOf spans s.pos + n]? := by
    subst hranges
    exact Ranges.advance_places hspans h.start_le h.le_stop n
  unfold Stream.advance
  simp only
  split
  · rename_i hnone
    rw [hnone] at hplaces
    rw [← hplaces]
    exact ⟨tracks_finished hspans h.doc h.ranges h.stop h.spare, rfl⟩
  · rename_i pos ranges hsome
    rw [hsome] at hplaces
    rw [← hplaces]
    refine ⟨?_, (fetch_eq _).2.2.1⟩
    obtain ⟨hlist, hlt⟩ := Ranges.advance_eq_some hsome
    refine tracks_fetch hsize hspans h.doc (hlist.trans hranges) h.stop h.window h.spare
      ⟨Ranges.start_le_advance h.start_le hsome, hlt⟩ ?_
    intro hin
    -- a place in the window is a place in the text, so that no gap was crossed
    have hin : s.offset + n < s.window.size := hin
    have hfound := h.window.getElem?_placeOf hspans hin
    have hplace := h.window.placeOf_eq hspans h.offset_le hin
    rw [h.place] at hplace
    have hindex : placeOf spans (s.window.pos + (s.offset + n)) = placeOf spans s.pos + n := by
      omega
    rw [hindex, ← hplaces] at hfound
    exact (Option.some.inj hfound).symm

theorem placeOf_stop (h : s.Tracks d spans) (hspans : Span.Ordered spans) :
    placeOf spans s.stop = (positionsIn spans).length :=
  placeOf_of_le fun _ hr => hspans.le_last h.stop hr

/-- Moving on by so many bytes of the text. -/
theorem placeOf_advance (h : s.Tracks d spans) (hspans : Span.Ordered spans)
    (hsize : d.HandsOut) (n : Nat) :
    placeOf spans (s.advance n).pos = min (placeOf spans s.pos + n) (positionsIn spans).length := by
  rw [(h.advance hspans hsize n).2]
  cases hpos : (positionsIn spans)[placeOf spans s.pos + n]? with
  | none =>
      have hle := List.getElem?_eq_none_iff.1 hpos
      rw [Option.getD_none, h.placeOf_stop hspans, Nat.min_eq_right hle]
  | some pos =>
      obtain ⟨hlt, -⟩ := List.getElem?_eq_some_iff.1 hpos
      rw [Option.getD_some, placeOf_getElem? hspans hpos, Nat.min_eq_left (Nat.le_of_lt hlt)]

/-- A position that is not moved out of a gap lies in a range or at the end. -/
theorem clip_eq_self (h : s.Tracks d spans) {pos : Nat} (hclip : s.clip pos = pos) :
    pos = s.stop ∨ ∃ r ∈ spans, r.Holds pos := by
  have hranges := h.ranges
  subst hranges
  unfold clip at hclip
  split at hclip
  · rename_i hin
    simp only [Bool.and_eq_true, decide_eq_true_eq] at hin
    exact Or.inr ⟨_, s.ranges.current_mem, hin⟩
  · split at hclip
    · rename_i r hfound
      have hlt := List.find?_some hfound
      simp only [decide_eq_true_eq] at hlt
      exact Or.inr ⟨r, List.mem_of_find?_eq_some hfound, by omega, hlt⟩
    · exact Or.inl hclip.symm

/-- Starting over at a position of the text or at its end. -/
theorem reset (h : s.Tracks d spans) (hspans : Span.Ordered spans) (hsize : d.HandsOut)
    {pos : Nat} (hclip : s.clip pos = pos) (token : Option Token) :
    (s.reset pos token).Tracks d spans := by
  have hranges := h.ranges
  unfold Stream.reset
  simp only
  split
  · exact h.withToken _
  · split
    · exact tracks_finished hspans h.doc h.ranges h.stop h.spare
    · rename_i hne hlt
      have hhold : (s.ranges.seek pos).current.Holds pos := by
        rcases h.clip_eq_self hclip with rfl | ⟨r, hr, hold⟩
        · exact absurd (Nat.le_refl _) hlt
        · subst hranges
          exact Ranges.seek_holds hspans hr hold
      have hseek : (s.ranges.seek pos).toList = spans := by rw [Ranges.toList_seek, hranges]
      split
      · rename_i hin
        simp only [Window.contains, Bool.and_eq_true, decide_eq_true_eq] at hin
        refine tracks_fetch hsize hspans h.doc hseek h.stop h.window h.spare hhold fun _ => ?_
        dsimp only
        omega
      · exact tracks_fetch hsize hspans h.doc hseek h.stop (Window.within_empty _ _) h.spare hhold
          fun hlt => absurd hlt (Nat.not_lt_zero _)

theorem pos_reset (h : s.Tracks d spans) (hspans : Span.Ordered spans) {pos : Nat}
    (hclip : s.clip pos = pos) (token : Option Token) : (s.reset pos token).pos = pos := by
  unfold Stream.reset
  simp only
  split
  · rename_i heq
    exact heq
  · split
    · rename_i hne hle
      rcases h.clip_eq_self hclip with rfl | ⟨r, hr, hold⟩
      · rfl
      · have hlast := hspans.le_last h.stop hr
        have := hold.2
        omega
    · split
      · exact (fetch_eq _).2.2.1
      · exact (fetch_eq _).2.2.1

/-- **Reading leaves the gaps out.** -/
theorem read_eq (h : s.Tracks d spans) (hspans : Span.Ordered spans) {a b : Nat} (hle : a ≤ b) :
    s.read a b = d.readIn spans a b := by
  unfold Stream.read
  rw [h.doc, h.ranges]
  split
  · rename_i hin
    simp only [Bool.and_eq_true, decide_eq_true_eq] at hin
    exact (h.window.readIn_eq hspans hle hin.1 hin.2).symm
  · split
    · rename_i hin
      simp only [Bool.and_eq_true, decide_eq_true_eq] at hin
      exact (h.spare.readIn_eq hspans hle hin.1 hin.2).symm
    · split
      · rename_i hin
        simp only [Bool.and_eq_true, decide_eq_true_eq] at hin
        exact (d.readIn_of_mem hspans (h.ranges ▸ s.ranges.current_mem) hin.1 hin.2).symm
      · exact d.readIn_touched hspans

end Tracks

/-! ### Operations -/

/-- What tokenizers and parses do to a stream. -/
inductive Operation where
  | reset (pos : Nat) (token : Option Token)
  | advance (n : Nat)
  | peek (offset : Int)
  | accept (term : Nat) (offset : Int)
deriving Repr, DecidableEq

/-- The stream after an operation. -/
def Operation.run (s : Stream) : Operation → Stream
  | reset pos token => s.reset pos token
  | advance n => s.advance n
  | peek offset => (s.peek offset).2
  | accept term offset => (s.accept term offset).toOption.getD s

/-- Whether an operation starts over outside of gaps only. -/
def Operation.avoidsGaps (s : Stream) : Operation → Bool
  | reset pos _ => s.clip pos = pos
  | _ => true

/-- Whether an operation opens no window that shows a gap. -/
def Operation.staysInside (s : Stream) : Operation → Bool
  | peek offset => !s.looksOverGap offset
  | _ => true

/-- The stream after some operations. -/
def after (s : Stream) (ops : List Operation) : Stream := ops.foldl Operation.run s

/-- Whether something holds of each of some operations when it is done. -/
def along (check : Stream → Operation → Bool) : Stream → List Operation → Bool
  | _, [] => true
  | s, op :: rest => check s op && along check (op.run s) rest

/-- **What an operation keeps.** -/
theorem Operation.run_tracks (hspans : Span.Ordered spans) (hsmall : Span.Small spans)
    (hsize : d.HandsOut) (h : s.Tracks d spans) {op : Operation}
    (hgaps : op.avoidsGaps s = true) (hinside : op.staysInside s = true) :
    (op.run s).Tracks d spans := by
  cases op with
  | reset pos token => exact h.reset hspans hsize (by simpa [avoidsGaps] using hgaps) token
  | advance n => exact (h.advance hspans hsize n).1
  | peek offset => exact h.peek hspans hsmall (by simpa [staysInside] using hinside)
  | accept term offset =>
      change ((s.accept term offset).toOption.getD s).Tracks d spans
      unfold Stream.accept
      simp only
      split
      · split
        · exact h.withToken _
        · exact h
      · exact h

theorem after_tracks (hspans : Span.Ordered spans) (hsmall : Span.Small spans)
    (hsize : d.HandsOut) (ops : List Operation) (h : s.Tracks d spans)
    (hgaps : s.along (fun s op => op.avoidsGaps s) ops = true)
    (hinside : s.along (fun s op => op.staysInside s) ops = true) :
    (s.after ops).Tracks d spans := by
  induction ops generalizing s with
  | nil => exact h
  | cons op rest ih =>
      simp only [along, Bool.and_eq_true] at hgaps hinside
      exact ih (Operation.run_tracks hspans hsmall hsize h hgaps.1 hinside.1) hgaps.2 hinside.2

end Stream

namespace Parse

/-! ### The stream of a parse -/

theorem ordered_of_rangesOk {ranges : List Span} (h : rangesOk ranges = true) :
    Span.Ordered ranges := by
  induction ranges with
  | nil => exact ⟨by simp, .nil⟩
  | cons r rest ih =>
      cases rest with
      | nil =>
          refine ⟨fun x hx => ?_, List.pairwise_singleton _ _⟩
          obtain rfl := List.mem_singleton.1 hx
          simpa [rangesOk] using h
      | cons next rest =>
          simp only [rangesOk, List.tail_cons, List.zip_cons_cons, List.all_cons,
            Bool.and_eq_true, decide_eq_true_eq] at h ih
          obtain ⟨⟨hr, hnext, hall⟩, hfollow, hrest⟩ := h
          have hordered := ih ⟨⟨hnext, hall⟩, hrest⟩
          refine ⟨List.forall_mem_cons.2 ⟨hr, hordered.ends⟩,
            List.pairwise_cons.2 ⟨fun x hx => ?_, hordered.apart⟩⟩
          rcases List.mem_cons.1 hx with rfl | hx
          · exact hfollow
          · have := (List.pairwise_cons.1 hordered.apart).1 x hx
            omega

/-- The ranges of a parse: the whole document if none are given. -/
def spansOf (doc : Document) (ranges : List Span) : List Span :=
  if ranges.isEmpty then [⟨0, doc.size⟩] else ranges

theorem spansOf_ne_nil (doc : Document) (ranges : List Span) : spansOf doc ranges ≠ [] := by
  unfold spansOf
  split
  · exact List.cons_ne_nil _ _
  · rename_i hempty
    exact fun hnil => hempty (by rw [hnil]; rfl)

/-- A parse begins at the start of its ranges, which are in order. -/
theorem start_stream {p : Parser} {doc : Document} {fragments : List Fragment}
    {ranges : List Span} {epoch limit : Nat} {q : Parse}
    (h : Parse.start p doc fragments ranges epoch limit = .ok q) :
    Span.Ordered (spansOf doc ranges) ∧
      q.env.stream = Stream.start doc (spansOf doc ranges) := by
  unfold Parse.start at h
  split at h
  · cases h
  · rename_i hok
    simp only [Bool.not_eq_true, Bool.not_eq_false'] at hok
    obtain rfl := Except.ok.inj h
    refine ⟨?_, rfl⟩
    unfold spansOf
    split
    · refine ⟨fun x hx => ?_, List.pairwise_singleton _ _⟩
      obtain rfl := List.mem_singleton.1 hx
      exact Nat.zero_le _
    · exact ordered_of_rangesOk hok

/-- The stream that a parse begins with. -/
theorem start_tracks {p : Parser} {doc : Document} {fragments : List Fragment}
    {ranges : List Span} {epoch limit : Nat} {q : Parse}
    (h : Parse.start p doc fragments ranges epoch limit = .ok q)
    (hsize : doc.HandsOut)
    (hfirst : (spansOf doc ranges).head?.all Span.isEmpty = true →
      positionsIn (spansOf doc ranges) = []) :
    Span.Ordered (spansOf doc ranges) ∧ q.env.stream.Tracks doc (spansOf doc ranges) := by
  obtain ⟨hspans, heq⟩ := start_stream h
  refine ⟨hspans, ?_⟩
  rw [heq]
  obtain ⟨first, rest, hlist⟩ := List.exists_cons_of_ne_nil (spansOf_ne_nil doc ranges)
  rw [hlist] at hspans hfirst ⊢
  exact Stream.tracks_start hsize hspans (by simpa using hfirst)

/-- The text `ab--cd--ef`, of which the letters are parsed. -/
def gapText : Document := { bytes := #[97, 98, 45, 45, 99, 100, 45, 45, 101, 102] }

/-- The ranges of the letters. -/
def gapRanges : List Span := [⟨0, 2⟩, ⟨4, 6⟩, ⟨8, 10⟩]

/-- Looking from the second range into the third one, starting over, and moving on over the first
gap. -/
def gapWalk : List Stream.Operation := [.advance 2, .peek 2, .reset 0 none, .advance 3]

/-- Looking from the second range into the third one, and then back into the first one. -/
def gapLook : List Stream.Operation := [.advance 2, .peek 2, .peek (-2)]

end Parse

end IncrementalLR
