/-
**Where characters end.**

When no token is found, one character is left out.  Its end is looked for byte by byte: each
position on the way is moved out of a gap first, and the way ends at a byte that continues no
character, or at the end of the ranges.  The range that the stream stands in is only a short cut;
the way depends on the document and the list of ranges alone.

Positions are moved out of a gap to the start of the next range, whether that holds any text or not.
So the way may end at an empty range in the middle of a gap, at a byte that is not part of the text.
Everywhere else it ends at the least position that it could.

Main definitions:

* `Document.continuesAt` — whether the byte at a position continues a character;
* `Span.Stray` — positions of empty ranges that touch no text;
* `Stream.IsOver` — streams over ranges of a document, whatever range they stand in.

Main results:

* `Stream.IsOver.clip_eq` — the current range does not matter;
* `Stream.IsOver.clip_cases`, `Stream.IsOver.clip_le` — where positions are moved to;
* `Stream.IsOver.charEndF_way` — the way to the end of a character;
* `Parse.charEnd_isLeast` — **the end of a character is the least position that it may have**,
  unless there is a stray range;
* `Parse.charEnd_stray` — a character that ends at a stray range.
-/

import IncrementalLR.Proofs.Gaps
import Mathlib.Order.Bounds.Defs

set_option relaxedAutoImplicit false
set_option autoImplicit false

namespace IncrementalLR

/-- Whether the byte at a position continues a character. -/
def Document.continuesAt (d : Document) (pos : Nat) : Bool :=
  d.bytes[pos]?.any Text.isContinuation

/-- The first byte that is handed out from a position on. -/
theorem Document.byteIn?_first (d : Document) (h : d.HandsOut) (pos : Nat) :
    d.byteIn? (d.window pos) 0 = d.bytes[pos]? := by
  have hcut : (d.window pos).cut ((d.window pos).size + 1) = d.window pos := by
    rw [Window.cut, Nat.min_eq_left (Nat.le_succ _)]
  rw [← hcut]
  exact d.byteIn?_window h (Nat.succ_pos _)

/-- The position of an empty range that touches no text: neither the byte there nor the one before
is in a range. -/
def Span.Stray (spans : List Span) (pos : Nat) : Prop :=
  (∃ r ∈ spans, r.start = pos ∧ r.stop = pos) ∧
    pos ∉ positionsIn spans ∧ pos - 1 ∉ positionsIn spans

instance (spans : List Span) (pos : Nat) : Decidable (Span.Stray spans pos) :=
  inferInstanceAs (Decidable (_ ∧ _ ∧ _))

namespace Stream

/-- A stream over ranges of a document.  It may stand anywhere. -/
structure IsOver (d : Document) (spans : List Span) (s : Stream) : Prop where
  doc : s.doc = d
  ranges : s.ranges.toList = spans
  stop : spans.getLast?.map Span.stop = some s.stop

namespace IsOver

variable {d : Document} {spans : List Span} {s s' : Stream}

theorem stop_eq (h : s.IsOver d spans) (h' : s'.IsOver d spans) : s.stop = s'.stop :=
  Option.some.inj (h.stop.symm.trans h'.stop)

/-! ### Moving out of gaps -/

/-- **The current range does not matter** where a position is moved to. -/
theorem clip_eq (h : s.IsOver d spans) (hspans : Span.Ordered spans) (pos : Nat) :
    s.clip pos =
      ((spans.find? fun r => pos < r.stop).map fun r => max pos r.start).getD s.stop := by
  have hranges := h.ranges
  unfold clip
  split
  · rename_i hin
    simp only [Bool.and_eq_true, decide_eq_true_eq] at hin
    -- no range before the current one ends after the position
    have hlist : spans = s.ranges.before.reverse ++ s.ranges.current :: s.ranges.after :=
      hranges.symm
    have hbefore : (s.ranges.before.reverse).find? (fun r => pos < r.stop) = none := by
      refine List.find?_eq_none.2 fun r hr => ?_
      have hle := (hlist ▸ hspans).stop_le r hr
      simp only [decide_eq_true_eq]
      omega
    rw [hlist, List.find?_append, hbefore, Option.none_or,
      List.find?_cons_of_pos (by simpa using hin.2), Option.map_some, Option.getD_some,
      Nat.max_eq_left hin.1]
  · rw [hranges]
    cases spans.find? fun r => pos < r.stop with
    | none => rfl
    | some r => rfl

/-- Which range a position is moved to: those before it end by the position, and those after it
start later. -/
theorem clip_eq_or (h : s.IsOver d spans) (hspans : Span.Ordered spans) (pos : Nat) :
    ((∀ r ∈ spans, r.stop ≤ pos) ∧ s.clip pos = s.stop) ∨
      ∃ r ∈ spans, pos < r.stop ∧ s.clip pos = max pos r.start ∧
        ∀ x ∈ spans, x = r ∨ x.stop ≤ pos ∨ r.stop ≤ x.start := by
  rw [h.clip_eq hspans]
  cases hfound : spans.find? fun r => pos < r.stop with
  | none =>
      refine Or.inl ⟨fun r hr => ?_, rfl⟩
      simpa using List.find?_eq_none.1 hfound r hr
  | some r =>
      obtain ⟨hlt, before, after, rfl, hbefore⟩ := List.find?_eq_some_iff_append.1 hfound
      refine Or.inr ⟨r, by simp, by simpa using hlt, rfl, fun x hx => ?_⟩
      rcases List.mem_append.1 hx with hx | hx
      · exact Or.inr (Or.inl (by simpa using hbefore x hx))
      · rcases List.mem_cons.1 hx with rfl | hx
        · exact Or.inl rfl
        · exact Or.inr (Or.inr (hspans.le_start x hx))

/-- Positions are only moved on, and not past the end. -/
theorem clip_bounds (h : s.IsOver d spans) (hspans : Span.Ordered spans) {pos : Nat}
    (hpos : pos ≤ s.stop) : pos ≤ s.clip pos ∧ s.clip pos ≤ s.stop := by
  rcases h.clip_eq_or hspans pos with ⟨-, heq⟩ | ⟨r, hr, hlt, heq, -⟩
  · omega
  · have hends := hspans.ends r hr
    have hlast := hspans.le_last h.stop hr
    omega

/-- No text is left out. -/
theorem clip_le (h : s.IsOver d spans) (hspans : Span.Ordered spans) {pos x : Nat} (hle : pos ≤ x)
    (hx : x ∈ positionsIn spans) : s.clip pos ≤ x := by
  obtain ⟨y, hy, hstart, hstop⟩ := mem_positionsIn.1 hx
  rcases h.clip_eq_or hspans pos with ⟨hnone, -⟩ | ⟨r, hr, hlt, heq, hothers⟩
  · have := hnone y hy
    omega
  · have hends := hspans.ends r hr
    rcases hothers y hy with rfl | hbefore | hafter
    · omega
    · omega
    · omega

/-- **Where a position is moved to**: to the end, into the text, or to a stray range behind it. -/
theorem clip_cases (h : s.IsOver d spans) (hspans : Span.Ordered spans) (pos : Nat) :
    s.clip pos = s.stop ∨ s.clip pos ∈ positionsIn spans ∨
      (pos < s.clip pos ∧ Span.Stray spans (s.clip pos)) := by
  rcases h.clip_eq_or hspans pos with ⟨-, heq⟩ | ⟨r, hr, hlt, heq, hothers⟩
  · exact Or.inl heq
  · by_cases htext : s.clip pos ∈ positionsIn spans
    · exact Or.inr (Or.inl htext)
    · -- the range is empty, as its start is not in the text
      have hends := hspans.ends r hr
      have hempty : r.start = r.stop := by
        refine Nat.le_antisymm hends (Nat.le_of_not_lt fun hsome => htext ?_)
        exact mem_positionsIn.2 ⟨r, hr, by omega, by omega⟩
      refine Or.inr (Or.inr ⟨by omega, ⟨r, hr, by omega, by omega⟩, htext, fun hbefore => ?_⟩)
      obtain ⟨x, hx, hstart, hstop⟩ := mem_positionsIn.1 hbefore
      rcases hothers x hx with rfl | hle | hge
      · omega
      · omega
      · omega

/-! ### The way to the end of a character -/

/-- Where the way goes on. -/
theorem charEndF_succ (h : s.IsOver d spans) (hsize : d.HandsOut) (fuel pos : Nat) :
    s.charEndF (fuel + 1) pos =
      if pos < s.stop ∧ d.continuesAt pos = true then s.charEndF fuel (s.clip (pos + 1))
      else pos := by
  rw [charEndF, h.doc, d.byteIn?_first hsize]
  simp only [Bool.and_eq_true, decide_eq_true_eq]
  rfl

/-- What is known of the end of a way: it does not lie before its beginning, the way cannot go on
from it, no text in between starts a character, and it is the beginning itself or one of the
positions that others are moved to. -/
structure Way (d : Document) (spans : List Span) (s : Stream) (pos stop : Nat) : Prop where
  le : pos ≤ stop
  le_stop : stop ≤ s.stop
  ends : stop = s.stop ∨ d.continuesAt stop = false
  inside : ∀ x ∈ positionsIn spans, pos ≤ x → x < stop → d.continuesAt x = true
  lands : stop = pos ∨ stop = s.stop ∨ stop ∈ positionsIn spans ∨
    (pos + 1 < stop ∧ Span.Stray spans stop)

/-- **The way to the end of a character.**  It takes as many steps at most as there are positions
left. -/
theorem charEndF_way (h : s.IsOver d spans) (hspans : Span.Ordered spans)
    (hsize : d.HandsOut) {fuel pos : Nat} (hpos : pos ≤ s.stop)
    (hfuel : s.stop - pos ≤ fuel) : Way d spans s pos (s.charEndF fuel pos) := by
  induction fuel generalizing pos with
  | zero =>
      have hstop : pos = s.stop := by omega
      exact ⟨Nat.le_refl _, hpos, Or.inl hstop, fun x _ hle hlt => absurd hlt (Nat.not_lt.2 hle),
        Or.inl rfl⟩
  | succ fuel ih =>
      rw [h.charEndF_succ hsize]
      split
      · rename_i hgo
        obtain ⟨hlt, hcontinues⟩ := hgo
        obtain ⟨hle, hstop⟩ := h.clip_bounds hspans (show pos + 1 ≤ s.stop from hlt)
        have hway := ih hstop (by omega)
        have hfirst := hway.le
        refine ⟨by omega, hway.le_stop, hway.ends, fun x hx hge hbefore => ?_, ?_⟩
        · rcases Nat.eq_or_lt_of_le hge with rfl | hafter
          · exact hcontinues
          · exact hway.inside x hx (h.clip_le hspans hafter hx) hbefore
        · rcases hway.lands with heq | hend | htext | ⟨hfar, hstray⟩
          · -- the first position that the way comes to is its end
            rw [heq]
            rcases h.clip_cases hspans (pos + 1) with hend | htext | ⟨hfar, hstray⟩
            · exact Or.inr (Or.inl hend)
            · exact Or.inr (Or.inr (Or.inl htext))
            · exact Or.inr (Or.inr (Or.inr ⟨hfar, hstray⟩))
          · exact Or.inr (Or.inl hend)
          · exact Or.inr (Or.inr (Or.inl htext))
          · exact Or.inr (Or.inr (Or.inr ⟨by omega, hstray⟩))
      · rename_i hstay
        refine ⟨Nat.le_refl _, hpos, ?_, fun x _ hle hlt => absurd hlt (Nat.not_lt.2 hle),
          Or.inl rfl⟩
        rcases Nat.eq_or_lt_of_le hpos with hend | hlt
        · exact Or.inl hend
        · exact Or.inr (Bool.eq_false_iff.2 fun hcontinues => hstay ⟨hlt, hcontinues⟩)

/-- **The range that a stream stands in does not matter** for the way, and neither do more steps
than there are positions left. -/
theorem charEndF_congr (h : s.IsOver d spans) (h' : s'.IsOver d spans)
    (hspans : Span.Ordered spans) (hsize : d.HandsOut) {fuel fuel' pos : Nat}
    (hpos : pos ≤ s.stop) (hfuel : s.stop - pos ≤ fuel) (hfuel' : s.stop - pos ≤ fuel') :
    s.charEndF fuel pos = s'.charEndF fuel' pos := by
  have hstop := h.stop_eq h'
  induction fuel generalizing fuel' pos with
  | zero =>
      have hend : ¬ pos < s'.stop := by omega
      cases fuel' with
      | zero => rfl
      | succ fuel' =>
          rw [h'.charEndF_succ hsize, if_neg fun hgo => hend hgo.1]
          rfl
  | succ fuel ih =>
      cases fuel' with
      | zero =>
          have hend : ¬ pos < s.stop := by omega
          rw [h.charEndF_succ hsize, if_neg fun hgo => hend hgo.1]
          rfl
      | succ fuel' =>
          rw [h.charEndF_succ hsize, h'.charEndF_succ hsize, ← hstop]
          split
          · rename_i hgo
            have hclip : s.clip (pos + 1) = s'.clip (pos + 1) := by
              rw [h.clip_eq hspans, h'.clip_eq hspans, hstop]
            obtain ⟨hle, hend⟩ := h.clip_bounds hspans (show pos + 1 ≤ s.stop from hgo.1)
            rw [← hclip]
            exact ih hend (by omega) (by omega)
          · rfl

/-- What is known of the end of a character. -/
theorem charEnd_way (h : s.IsOver d spans) (hspans : Span.Ordered spans)
    (hsize : d.HandsOut) {pos : Nat} (hpos : pos < s.stop) :
    Way d spans s (s.clip (pos + 1)) (s.charEnd pos) := by
  obtain ⟨hle, hstop⟩ := h.clip_bounds hspans (show pos + 1 ≤ s.stop from hpos)
  exact h.charEndF_way hspans hsize hstop (by omega)

/-- The end of a character is the end, in the text, or a stray range. -/
theorem charEnd_cases (h : s.IsOver d spans) (hspans : Span.Ordered spans)
    (hsize : d.HandsOut) {pos : Nat} (hpos : pos < s.stop) :
    s.charEnd pos = s.stop ∨ s.charEnd pos ∈ positionsIn spans ∨
      (pos + 1 < s.charEnd pos ∧ Span.Stray spans (s.charEnd pos)) := by
  have hway := h.charEnd_way hspans hsize hpos
  have hle := (h.clip_bounds hspans (show pos + 1 ≤ s.stop from hpos)).1
  rcases hway.lands with heq | hend | htext | ⟨hfar, hstray⟩
  · rw [heq]
    exact h.clip_cases hspans (pos + 1)
  · exact Or.inl hend
  · exact Or.inr (Or.inl htext)
  · exact Or.inr (Or.inr ⟨by omega, hstray⟩)

end IsOver

/-- The stream at the start of its ranges. -/
theorem start_isOver (d : Document) {spans : List Span} (hne : spans ≠ []) :
    (start d spans).IsOver d spans := by
  obtain ⟨first, rest, rfl⟩ := List.exists_cons_of_ne_nil hne
  obtain ⟨hranges, hstop, -, -, hdoc⟩ := fetch_eq
    { doc := d, ranges := Ranges.ofList (first :: rest), window := ⟨first.start, 0⟩,
      pos := first.start, stop := (Ranges.ofList (first :: rest)).toLast.current.stop }
  refine ⟨hdoc, congrArg Ranges.toList hranges, ?_⟩
  have hlast := (Ranges.ofList (first :: rest)).getLast?_toList
  change (Ranges.ofList (first :: rest)).toList.getLast?.map Span.stop = _
  rw [hlast]
  exact congrArg some hstop.symm

end Stream

namespace Parse

/-- **The end of a character is the least position that it may have.**  A stream stands anywhere in
the ranges that a parse was started with, and looks for the end of the character at a position
before their end.  It finds one, which lies behind the position and not past the end; it takes no
more steps than there are positions left, and the range that the stream stands in does not matter.
All text in between continues the character.  If no empty range on the way lies by itself in a gap,
then this is the least position behind that is the end of the ranges, or in one of them and no
continuation byte.  A stack that leaves the character out gets on, and not past the end. -/
theorem charEnd_isLeast {p : Parser} {doc : Document} {fragments : List Fragment}
    {ranges : List Span} {epoch limit : Nat} {q : Parse}
    (hstart : Parse.start p doc fragments ranges epoch limit = .ok q)
    (hsize : doc.HandsOut) {s : Stream} (hs : s.IsOver doc (spansOf doc ranges))
    {pos : Nat} (hpos : pos < s.stop) :
    (pos < s.charEnd pos ∧ s.charEnd pos ≤ s.stop) ∧
    (∀ fuel, s.stop - pos ≤ fuel → s.charEndF fuel (s.clip (pos + 1)) = s.charEnd pos) ∧
    s.charEnd pos = q.env.stream.charEnd pos ∧
    (∀ x ∈ positionsIn (spansOf doc ranges), pos < x → x < s.charEnd pos →
      doc.continuesAt x = true) ∧
    ((∀ e, Span.Stray (spansOf doc ranges) e → e ≤ pos + 1 ∨ s.stop ≤ e) →
      IsLeast {x | pos < x ∧
        (x = s.stop ∨ x ∈ positionsIn (spansOf doc ranges) ∧ doc.continuesAt x = false)}
        (s.charEnd pos)) ∧
    ∀ stack : Stack, stack.pos = pos →
      pos < (stack.deleteToken p errorTerm (s.charEnd stack.pos)).pos ∧
        (stack.deleteToken p errorTerm (s.charEnd stack.pos)).pos ≤ s.stop := by
  obtain ⟨hspans, hbegin⟩ := start_stream hstart
  have hover : q.env.stream.IsOver doc (spansOf doc ranges) :=
    hbegin ▸ Stream.start_isOver doc (spansOf_ne_nil doc ranges)
  have hway := hs.charEnd_way hspans hsize hpos
  obtain ⟨hclip, hclipStop⟩ := hs.clip_bounds hspans (show pos + 1 ≤ s.stop from hpos)
  have hlt : pos < s.charEnd pos := Nat.lt_of_lt_of_le hclip hway.le
  have hinside : ∀ x ∈ positionsIn (spansOf doc ranges), pos < x → x < s.charEnd pos →
      doc.continuesAt x = true := fun x hx hafter hbefore =>
    hway.inside x hx (hs.clip_le hspans hafter hx) hbefore
  refine ⟨⟨hlt, hway.le_stop⟩, fun fuel hfuel => ?_, ?_, hinside, fun hstray => ⟨⟨hlt, ?_⟩, ?_⟩, ?_⟩
  · exact hs.charEndF_congr hs hspans hsize hclipStop (by omega) (by omega)
  · have hstop := hs.stop_eq hover
    have hsame : s.clip (pos + 1) = q.env.stream.clip (pos + 1) := by
      rw [hs.clip_eq hspans, hover.clip_eq hspans, hstop]
    rw [Stream.charEnd, Stream.charEnd, ← hsame, ← hstop]
    exact hs.charEndF_congr hover hspans hsize hclipStop (by omega) (by omega)
  · -- a stray range is excluded unless it is the end
    rcases hs.charEnd_cases hspans hsize hpos with hend | htext | ⟨hfar, halone⟩
    · exact Or.inl hend
    · exact hway.ends.imp_right fun hnew => ⟨htext, hnew⟩
    · have hle := hway.le_stop
      exact Or.inl (by have := hstray _ halone; omega)
  · rintro x ⟨hafter, rfl | ⟨htext, hnew⟩⟩
    · exact hway.le_stop
    · refine Nat.le_of_not_lt fun hbefore => ?_
      rw [hinside x htext hafter hbefore] at hnew
      cases hnew
  · rintro stack rfl
    exact ⟨hlt, hway.le_stop⟩

/-- The text `aéb` with two other bytes between those of the second character. -/
def splitText : Document := { bytes := #[97, 195, 45, 45, 169, 98] }

/-- The ranges of the text, and an empty one at the end of the first. -/
def splitRanges : List Span := [⟨0, 2⟩, ⟨2, 2⟩, ⟨4, 6⟩]

/-- From the last range, too, the second character is seen to end after its second byte. -/
theorem charEnd_isLeast_split :
    ∃ (q : Parse) (s : Stream), Parse.start pairParser splitText [] splitRanges 1 100 = .ok q ∧
      s.IsOver splitText splitRanges ∧ s.ranges.current = ⟨4, 6⟩ ∧ s.charEnd 1 = 5 ∧
      IsLeast {x | 1 < x ∧ (x = s.stop ∨ x ∈ positionsIn splitRanges ∧
        splitText.continuesAt x = false)} 5 := by
  have heval : (Parse.start pairParser splitText [] splitRanges 1 100).toOption.any (fun q =>
      q.env.stream.charEnd 1 = 5 && q.env.stream.stop = 6) = true := by decide +kernel
  obtain ⟨q, hstart, heval⟩ := exists_ok_of_any heval
  rw [Bool.and_eq_true, decide_eq_true_eq, decide_eq_true_eq] at heval
  obtain ⟨hend, hstop⟩ := heval
  have hbegin : q.env.stream.IsOver splitText splitRanges :=
    (start_stream hstart).2 ▸ Stream.start_isOver splitText (List.cons_ne_nil _ _)
  let s : Stream := { q.env.stream with ranges := ⟨[⟨2, 2⟩, ⟨0, 2⟩], ⟨4, 6⟩, []⟩ }
  have hs : s.IsOver splitText splitRanges := ⟨hbegin.doc, rfl, hbegin.stop⟩
  have hpos : 1 < s.stop := by
    show 1 < q.env.stream.stop
    omega
  have hstray : ∀ e, Span.Stray splitRanges e → e ≤ 2 ∨ s.stop ≤ e := by
    rintro e ⟨⟨r, hr, rfl, hempty⟩, -⟩
    have hall : ∀ r ∈ splitRanges, r.stop = r.start → r.start ≤ 2 := by decide
    exact Or.inl (hall r hr hempty)
  obtain ⟨-, -, hsame, -, hleast, -⟩ := charEnd_isLeast hstart (by decide) hs hpos
  rw [hend] at hsame
  exact ⟨q, s, hstart, hs, rfl, hsame, hsame ▸ hleast hstray⟩

/-- A text of three letters and a gap, in which one byte may be anything. -/
def strayText (b : UInt8) : Document := { bytes := #[97, 45, 45, 45, 45, b, 45, 45, 98, 99] }

/-- The ranges of the letters, and an empty one at that byte. -/
def strayRanges : List Span := [⟨0, 1⟩, ⟨5, 5⟩, ⟨8, 10⟩]

/-- **A character that ends at a stray range.**  The first letter ends at the byte in the gap, not
at the second letter, though the gap is no text.  If that byte is one that continues a character,
the same letter does end at the second one. -/
theorem charEnd_stray :
    ∃ q q', Parse.start pairParser (strayText 45) [] strayRanges 1 100 = .ok q ∧
      Parse.start pairParser (strayText 130) [] strayRanges 1 100 = .ok q' ∧
      q.env.stream.charEnd 0 = 5 ∧ 5 ∉ positionsIn strayRanges ∧
      ¬ IsLeast {x | 0 < x ∧ (x = q.env.stream.stop ∨ x ∈ positionsIn strayRanges ∧
        (strayText 45).continuesAt x = false)} (q.env.stream.charEnd 0) ∧
      q'.env.stream.charEnd 0 = 8 := by
  have heval : (Parse.start pairParser (strayText 45) [] strayRanges 1 100).toOption.any (fun q =>
      q.env.stream.charEnd 0 = 5 && q.env.stream.stop = 10) = true := by decide +kernel
  have heval' : (Parse.start pairParser (strayText 130) [] strayRanges 1 100).toOption.any (fun q =>
      q.env.stream.charEnd 0 = 8) = true := by decide +kernel
  obtain ⟨q, hstart, heval⟩ := exists_ok_of_any heval
  obtain ⟨q', hstart', heval'⟩ := exists_ok_of_any heval'
  rw [Bool.and_eq_true, decide_eq_true_eq, decide_eq_true_eq] at heval
  obtain ⟨hend, hstop⟩ := heval
  have hgap : 5 ∉ positionsIn strayRanges := by decide
  refine ⟨q, q', hstart, hstart', hend, hgap, ?_, of_decide_eq_true heval'⟩
  rw [hend, hstop]
  rintro ⟨⟨-, hfive | ⟨htext, -⟩⟩, -⟩
  · cases hfive
  · exact hgap htext

end Parse

end IncrementalLR
