/-
**Places in the text of several ranges.**

The text of a parse that is restricted to ranges is what stands in them, one range after the other,
without the gaps.  A byte of it is known by its position in the document or by its place in the
text, the number of bytes before it.  This module relates both, and shows that moving along the
ranges is counting places.

Main definitions:

* `Span.Ordered` — ranges that follow each other;
* `positionsIn`, `placeOf` — the positions of the text, and the place of a position in it.

Main results:

* `placeOf_eq` — the place of a position in one of the ranges;
* `Ranges.advance_eq`, `Ranges.resolve_eq` — **going over gaps is counting places**;
* `Ranges.seek_holds` — a position is found in its range.
-/

import IncrementalLR.Proofs.Streams

set_option relaxedAutoImplicit false
set_option autoImplicit false

namespace IncrementalLR

/-- Ranges that follow each other. -/
structure Span.Ordered (spans : List Span) : Prop where
  ends : ∀ r ∈ spans, r.start ≤ r.stop
  apart : spans.Pairwise fun a b => a.stop ≤ b.start

/-- Ranges whose positions are their own signed numbers. -/
def Span.Small (spans : List Span) : Prop := ∀ r ∈ spans, r.stop < 9223372036854775808

/-- Whether a position lies in a range. -/
def Span.Holds (r : Span) (pos : Nat) : Prop := r.start ≤ pos ∧ pos < r.stop

/-- The positions of the text in some ranges. -/
def positionsIn (spans : List Span) : List Nat :=
  spans.flatMap fun r => List.range' r.start (r.stop - r.start)

/-- The number of bytes of the text before a position. -/
def placeOf : List Span → Nat → Nat
  | [], _ => 0
  | r :: rest, pos => min r.stop pos - r.start + placeOf rest pos

/-! ### Positions -/

theorem positionsIn_append (spans spans' : List Span) :
    positionsIn (spans ++ spans') = positionsIn spans ++ positionsIn spans' :=
  List.flatMap_append

theorem positionsIn_cons (r : Span) (rest : List Span) :
    positionsIn (r :: rest) = List.range' r.start (r.stop - r.start) ++ positionsIn rest :=
  List.flatMap_cons

theorem mem_positionsIn {spans : List Span} {pos : Nat} :
    pos ∈ positionsIn spans ↔ ∃ r ∈ spans, r.Holds pos := by
  simp only [positionsIn, Span.Holds, List.mem_flatMap, List.mem_range'_1]
  refine exists_congr fun r => and_congr_right fun _ => ?_
  omega

/-- The positions in the first range. -/
theorem getElem?_positionsIn_first {r : Span} {i : Nat} (h : i < r.stop - r.start)
    (rest : List Span) : (positionsIn (r :: rest))[i]? = some (r.start + i) := by
  rw [positionsIn_cons, List.getElem?_append_left (by simpa using h), List.getElem?_range' h,
    Nat.one_mul]

/-- The positions after those of the first ranges. -/
theorem getElem?_positionsIn_add (spans spans' : List Span) (i : Nat) :
    (positionsIn (spans ++ spans'))[(positionsIn spans).length + i]? =
      (positionsIn spans')[i]? := by
  rw [positionsIn_append, List.getElem?_append_right (Nat.le_add_right _ _),
    Nat.add_sub_cancel_left]

theorem getElem?_positionsIn_cons_add (r : Span) (rest : List Span) (i : Nat) :
    (positionsIn (r :: rest))[r.stop - r.start + i]? = (positionsIn rest)[i]? := by
  have key := getElem?_positionsIn_add [r] rest i
  simpa [positionsIn] using key

/-! ### Places -/

theorem placeOf_append (spans spans' : List Span) (pos : Nat) :
    placeOf (spans ++ spans') pos = placeOf spans pos + placeOf spans' pos := by
  induction spans with
  | nil => simp [placeOf]
  | cons r rest ih =>
      simp only [List.cons_append, placeOf, ih]
      omega

theorem placeOf_of_le {spans : List Span} {pos : Nat} (h : ∀ r ∈ spans, r.stop ≤ pos) :
    placeOf spans pos = (positionsIn spans).length := by
  induction spans with
  | nil => rfl
  | cons r rest ih =>
      obtain ⟨hr, hrest⟩ := List.forall_mem_cons.1 h
      have hlength := ih hrest
      rw [placeOf, positionsIn_cons, List.length_append, List.length_range', hlength]
      omega

theorem placeOf_of_ge {spans : List Span} {pos : Nat} (h : ∀ r ∈ spans, pos ≤ r.start) :
    placeOf spans pos = 0 := by
  induction spans with
  | nil => rfl
  | cons r rest ih =>
      obtain ⟨hr, hrest⟩ := List.forall_mem_cons.1 h
      rw [placeOf, ih hrest]
      omega

namespace Span.Ordered

variable {before after : List Span} {cur : Span}

theorem stop_le (h : Ordered (before ++ cur :: after)) : ∀ r ∈ before, r.stop ≤ cur.start :=
  fun r hr => (List.pairwise_append.1 h.apart).2.2 r hr cur List.mem_cons_self

theorem le_start (h : Ordered (before ++ cur :: after)) : ∀ r ∈ after, cur.stop ≤ r.start :=
  (List.pairwise_cons.1 (List.pairwise_append.1 h.apart).2.1).1

theorem current (h : Ordered (before ++ cur :: after)) : cur.start ≤ cur.stop :=
  h.ends cur (List.mem_append_right _ List.mem_cons_self)

theorem le_last {spans : List Span} {stop : Nat} (h : Ordered spans)
    (hstop : spans.getLast?.map Span.stop = some stop) {r : Span} (hr : r ∈ spans) :
    r.stop ≤ stop := by
  obtain ⟨last, hlast, rfl⟩ := Option.map_eq_some_iff.1 hstop
  obtain ⟨before, rfl⟩ := List.getLast?_eq_some_iff.1 hlast
  rcases List.mem_append.1 hr with hr | hr
  · exact Nat.le_trans (h.stop_le r hr) h.current
  · exact Nat.le_of_eq (congrArg Span.stop (List.mem_singleton.1 hr))

end Span.Ordered

/-- **The place of a position in one of the ranges**, or at its end. -/
theorem placeOf_eq {before after : List Span} {cur : Span} {pos : Nat}
    (h : Span.Ordered (before ++ cur :: after)) (hstart : cur.start ≤ pos)
    (hstop : pos ≤ cur.stop) :
    placeOf (before ++ cur :: after) pos = (positionsIn before).length + (pos - cur.start) := by
  have hbefore : placeOf before pos = (positionsIn before).length :=
    placeOf_of_le fun r hr => Nat.le_trans (h.stop_le r hr) hstart
  have hafter : placeOf after pos = 0 :=
    placeOf_of_ge fun r hr => Nat.le_trans hstop (h.le_start r hr)
  have hcons : placeOf (cur :: after) pos = min cur.stop pos - cur.start + placeOf after pos := rfl
  rw [placeOf_append, hbefore, hcons, hafter, Nat.min_eq_right hstop]
  rfl

/-- The places inside of one range are as far apart as the positions. -/
theorem placeOf_sub {spans : List Span} {r : Span} {a b : Nat} (h : Span.Ordered spans)
    (hr : r ∈ spans) (ha : r.start ≤ a) (hab : a ≤ b) (hb : b ≤ r.stop) :
    placeOf spans b = placeOf spans a + (b - a) := by
  obtain ⟨before, after, rfl⟩ := List.append_of_mem hr
  rw [placeOf_eq h (Nat.le_trans ha hab) hb, placeOf_eq h ha (Nat.le_trans hab hb)]
  omega

/-- A position of the text is found at its place. -/
theorem getElem?_placeOf {spans : List Span} {r : Span} {pos : Nat} (h : Span.Ordered spans)
    (hr : r ∈ spans) (hpos : r.Holds pos) : (positionsIn spans)[placeOf spans pos]? = some pos := by
  obtain ⟨hstart, hstop⟩ := hpos
  obtain ⟨before, after, rfl⟩ := List.append_of_mem hr
  rw [placeOf_eq h hstart (Nat.le_of_lt hstop), getElem?_positionsIn_add,
    getElem?_positionsIn_first (by omega)]
  congr 1
  omega

/-- The place of the position at a place. -/
theorem placeOf_getElem? {spans : List Span} {place pos : Nat} (h : Span.Ordered spans)
    (hpos : (positionsIn spans)[place]? = some pos) : placeOf spans pos = place := by
  induction spans generalizing place with
  | nil => simp [positionsIn] at hpos
  | cons r rest ih =>
      have hcons : placeOf (r :: rest) pos = min r.stop pos - r.start + placeOf rest pos := rfl
      have hle := h.ends r List.mem_cons_self
      have hfollow := (List.pairwise_cons.1 h.apart).1
      rcases Nat.lt_or_ge place (r.stop - r.start) with hlt | hge
      · obtain rfl := Option.some.inj ((getElem?_positionsIn_first hlt rest).symm.trans hpos)
        have hrest : placeOf rest (r.start + place) = 0 :=
          placeOf_of_ge fun x hx => Nat.le_trans (by omega) (hfollow x hx)
        omega
      · obtain ⟨i, rfl⟩ := Nat.exists_eq_add_of_le hge
        rw [getElem?_positionsIn_cons_add] at hpos
        have hrest : placeOf rest pos = i :=
          ih ⟨(List.forall_mem_cons.1 h.ends).2, (List.pairwise_cons.1 h.apart).2⟩ hpos
        obtain ⟨x, hx, hstart, -⟩ := mem_positionsIn.1 (List.mem_of_getElem? hpos)
        have := hfollow x hx
        omega

/-! ### Going on and following offsets -/

namespace Ranges

/-- **Going on is counting places**, from the start of the current range. -/
theorem advance_eq {before after : List Span} {cur : Span} {pos n : Nat}
    (hends : ∀ r ∈ cur :: after, r.start ≤ r.stop) (hstart : cur.start ≤ pos)
    (hstop : pos ≤ cur.stop) :
    (advance before cur after pos n).map Prod.fst =
      (positionsIn (cur :: after))[pos - cur.start + n]? := by
  induction after generalizing before cur pos n with
  | nil =>
      rw [advance]
      split
      · rw [List.getElem?_eq_none]
        · rfl
        · simp only [positionsIn_cons, List.length_append, List.length_range']
          simp only [positionsIn, List.flatMap_nil, List.length_nil]
          omega
      · rw [getElem?_positionsIn_first (by omega)]
        simp only [Option.map_some, Option.some.injEq]
        omega
  | cons r rest ih =>
      rw [advance]
      split
      · have hsplit : pos - cur.start + n = cur.stop - cur.start + (n - (cur.stop - pos)) := by
          omega
        have hends' := (List.forall_mem_cons.1 hends).2
        rw [ih hends' (Nat.le_refl _) (hends' r List.mem_cons_self), hsplit,
          getElem?_positionsIn_cons_add, Nat.sub_self, Nat.zero_add]
      · rw [getElem?_positionsIn_first (by omega)]
        simp only [Option.map_some, Option.some.injEq]
        omega

/-- Going on from a place of the text. -/
theorem advance_places {r : Ranges} {pos : Nat} (h : Span.Ordered r.toList)
    (hstart : r.current.start ≤ pos) (hstop : pos ≤ r.current.stop) (n : Nat) :
    (advance r.before r.current r.after pos n).map Prod.fst =
      (positionsIn r.toList)[placeOf r.toList pos + n]? := by
  have hplace : placeOf r.toList pos =
      (positionsIn r.before.reverse).length + (pos - r.current.start) :=
    placeOf_eq h hstart hstop
  have hends : ∀ x ∈ r.current :: r.after, x.start ≤ x.stop :=
    fun x hx => h.ends x (List.mem_append_right _ hx)
  rw [advance_eq hends hstart hstop, hplace, Nat.add_assoc, toList, getElem?_positionsIn_add]

/-- Going on ends in the range that is then the current one. -/
theorem start_le_advance {before after : List Span} {cur : Span} {pos n q : Nat} {r : Ranges}
    (hstart : cur.start ≤ pos) (h : advance before cur after pos n = some (q, r)) :
    r.current.start ≤ q := by
  induction after generalizing before cur pos n with
  | nil =>
      rw [advance] at h
      split at h
      · cases h
      · cases h
        exact Nat.le_trans hstart (Nat.le_add_right _ _)
  | cons next rest ih =>
      rw [advance] at h
      split at h
      · exact ih (Nat.le_refl _) h
      · cases h
        exact Nat.le_trans hstart (Nat.le_add_right _ _)

theorem signedPos_stop {spans : List Span} (h : Span.Small spans) {r : Span} (hr : r ∈ spans) :
    signedPos r.stop = r.stop :=
  signedPos_of_lt (h r hr)

theorem signedPos_start {spans : List Span} (h : Span.Small spans)
    (hends : ∀ r ∈ spans, r.start ≤ r.stop) {r : Span} (hr : r ∈ spans) :
    signedPos r.start = r.start :=
  signedPos_of_lt (Nat.lt_of_le_of_lt (hends r hr) (h r hr))

/-- Following a position back keeps its place; before the first range there is none. -/
theorem back_places {before after : List Span} {cur : Span} (pos : Int)
    (hsmall : Span.Small (before.reverse ++ cur :: after))
    (hends : ∀ r ∈ before.reverse ++ cur :: after, r.start ≤ r.stop) :
    match back before cur after pos with
    | none => (positionsIn before.reverse).length + (pos - cur.start) < 0
    | some (q, r) => r.current.start ≤ q ∧
        (positionsIn r.before.reverse).length + (q - r.current.start) =
          (positionsIn before.reverse).length + (pos - cur.start) := by
  have hcur : cur ∈ before.reverse ++ cur :: after :=
    List.mem_append_right _ List.mem_cons_self
  have hsigned := signedPos_start hsmall hends hcur
  induction before generalizing cur after pos with
  | nil =>
      rw [back, hsigned]
      split
      · rename_i hlt
        split at hlt
        · simp only [List.reverse_nil, positionsIn, List.flatMap_nil, List.length_nil]
          omega
        · cases hlt
      · rename_i hlt
        split at hlt
        · cases hlt
        · cases hlt
          exact ⟨by simp only; omega, rfl⟩
  | cons r rest ih =>
      rw [List.reverse_cons, List.append_assoc, List.singleton_append] at hsmall hends
      have hr : r ∈ rest.reverse ++ r :: cur :: after :=
        List.mem_append_right _ List.mem_cons_self
      have hle := hends r hr
      -- the gap between both ranges is left out
      have hplace : ((positionsIn (r :: rest).reverse).length : Int) + (pos - cur.start) =
          (positionsIn rest.reverse).length + (pos - (cur.start - r.stop) - r.start) := by
        rw [List.reverse_cons, positionsIn_append]
        simp only [positionsIn_cons, List.length_append, List.length_range']
        simp only [positionsIn, List.flatMap_nil, List.length_nil]
        omega
      rw [back, hsigned, signedPos_stop hsmall hr, hplace]
      by_cases hlt : pos < cur.start
      · rw [if_pos hlt]
        exact ih _ hsmall hends hr (signedPos_start hsmall hends hr)
      · rw [if_neg hlt]
        exact ⟨by simp only; omega, hplace⟩

/-- Following a position forth finds the position at its place. -/
theorem forth_eq {after : List Span} {cur : Span} {pos : Int} (hsmall : Span.Small (cur :: after))
    (hends : ∀ r ∈ cur :: after, r.start ≤ r.stop) (hstart : cur.start ≤ pos) :
    forth false after cur pos =
      ((positionsIn (cur :: after))[(pos - cur.start).toNat]?).map Int.ofNat := by
  have hle := hends cur List.mem_cons_self
  induction after generalizing cur pos with
  | nil =>
      have hsigned := signedPos_stop hsmall List.mem_cons_self
      simp only [forth, isBehind, hsigned, Bool.false_eq_true, if_false, decide_eq_true_eq]
      split
      · rw [List.getElem?_eq_none]
        · rfl
        · simp only [positionsIn_cons, List.length_append, List.length_range']
          simp only [positionsIn, List.flatMap_nil, List.length_nil]
          omega
      · rw [getElem?_positionsIn_first (by omega)]
        simp only [Option.map_some, Option.some.injEq, Int.ofNat_eq_natCast]
        omega
  | cons r rest ih =>
      obtain ⟨-, hends'⟩ := List.forall_mem_cons.1 hends
      obtain ⟨-, hsmall'⟩ := List.forall_mem_cons.1 hsmall
      have hsigned := signedPos_stop hsmall List.mem_cons_self
      have hsigned' := signedPos_start hsmall' hends' List.mem_cons_self
      simp only [forth, isBehind, hsigned, hsigned', Bool.false_eq_true, if_false,
        decide_eq_true_eq]
      split
      · have hplace : (pos - cur.start).toNat =
            cur.stop - cur.start + (pos + (r.start - cur.stop) - r.start).toNat := by
          omega
        rw [ih hsmall' hends' (by omega) (hends' r List.mem_cons_self), hplace,
          getElem?_positionsIn_cons_add]
      · rw [getElem?_positionsIn_first (by omega)]
        simp only [Option.map_some, Option.some.injEq, Int.ofNat_eq_natCast]
        omega

/-- **Following an offset is counting places.** -/
theorem resolve_eq {r : Ranges} {pos : Nat} (hsmall : Span.Small r.toList)
    (h : Span.Ordered r.toList) (hstart : r.current.start ≤ pos) (hstop : pos ≤ r.current.stop)
    (offset : Int) :
    r.resolve pos offset false =
      if (placeOf r.toList pos : Int) + offset < 0 then none
      else (positionsIn r.toList)[((placeOf r.toList pos : Int) + offset).toNat]? := by
  have hsigned : signedPos pos = pos :=
    signedPos_of_lt (Nat.lt_of_le_of_lt hstop (hsmall _ r.current_mem))
  have hplace : placeOf r.toList pos =
      (positionsIn r.before.reverse).length + (pos - r.current.start) :=
    placeOf_eq h hstart hstop
  have key := back_places (pos + offset) hsmall h.ends
  unfold resolve
  rw [hsigned]
  cases hback : back r.before r.current r.after (pos + offset) with
  | none =>
      rw [hback] at key
      rw [if_pos (by simp only at key; omega)]
  | some found =>
      obtain ⟨q, place⟩ := found
      rw [hback] at key
      obtain ⟨hq, hsame⟩ := key
      have hlist : place.toList = r.toList := back_eq_some hback
      have hsub : ∀ x ∈ place.current :: place.after, x ∈ r.toList := by
        intro x hx
        rw [← hlist]
        exact List.mem_append_right _ hx
      have hindex : ((placeOf r.toList pos : Int) + offset).toNat =
          (positionsIn place.before.reverse).length + (q - place.current.start).toNat := by
        omega
      rw [if_neg (by omega), hindex, ← hlist, toList, getElem?_positionsIn_add]
      simp only
      rw [forth_eq (fun x hx => hsmall x (hsub x hx)) (fun x hx => h.ends x (hsub x hx)) hq]
      cases (positionsIn (place.current :: place.after))[(q - place.current.start).toNat]? with
      | none => rfl
      | some found => simp

/-! ### Seeking -/

/-- Moving on finds the range of a position that lies in the current one or behind it. -/
theorem seekForth_holds {before after : List Span} {cur r : Span} {pos : Nat}
    (h : Span.Ordered (before.reverse ++ cur :: after)) (hr : r ∈ cur :: after)
    (hpos : r.Holds pos) : (seekForth pos before cur after).current.Holds pos := by
  induction after generalizing before cur with
  | nil =>
      obtain rfl := List.mem_singleton.1 hr
      exact hpos
  | cons next rest ih =>
      rw [seekForth]
      rcases List.mem_cons.1 hr with rfl | hr
      · rw [if_neg (by have := hpos.2; omega)]
        exact hpos
      · have hbehind : cur.stop ≤ pos := Nat.le_trans (h.le_start r hr) hpos.1
        rw [if_pos hbehind]
        refine ih ?_ hr
        rw [List.reverse_cons, List.append_assoc, List.singleton_append]
        exact h

/-- Moving on from an earlier position stays in the current range. -/
theorem seekForth_of_lt {before after : List Span} {cur : Span} {pos : Nat} (h : pos < cur.stop) :
    (seekForth pos before cur after).current = cur := by
  cases after with
  | nil => rfl
  | cons next rest =>
      rw [seekForth, if_neg (by omega)]

/-- Moving back stops by the range of a position. -/
theorem mem_seekBack {before after : List Span} {cur r : Span} {pos : Nat}
    (h : Span.Ordered (before.reverse ++ cur :: after))
    (hr : r ∈ before.reverse ++ cur :: after) (hpos : r.Holds pos) :
    r ∈ (seekBack pos before cur after).current :: (seekBack pos before cur after).after := by
  induction before generalizing cur after with
  | nil => exact hr
  | cons prev rest ih =>
      rw [seekBack]
      rw [List.reverse_cons, List.append_assoc, List.singleton_append] at h hr
      split
      · exact ih h hr
      · rename_i hge
        rw [List.append_cons] at h hr
        rcases List.mem_append.1 hr with hr | hr
        · have := h.stop_le r hr
          have := hpos.2
          omega
        · exact hr

/-- **A position is found in its range.** -/
theorem seek_holds {r : Ranges} {x : Span} {pos : Nat} (h : Span.Ordered r.toList)
    (hx : x ∈ r.toList) (hpos : x.Holds pos) : (r.seek pos).current.Holds pos := by
  have hlist := toList_seekBack pos r.before r.current r.after
  refine seekForth_holds ?_ (mem_seekBack h hx hpos) hpos
  change Span.Ordered (seekBack pos r.before r.current r.after).toList
  rw [hlist]
  exact h

theorem after_toLastFrom (before : List Span) (cur : Span) (after : List Span) :
    (toLastFrom before cur after).after = [] := by
  induction after generalizing before cur with
  | nil => rfl
  | cons r rest ih => exact ih (cur :: before) r

/-- The last range. -/
theorem getLast?_toList (r : Ranges) : r.toList.getLast? = some r.toLast.current := by
  have hafter : r.toLast.after = [] := after_toLastFrom r.before r.current r.after
  rw [← toList_toLast, toList, hafter]
  simp

end Ranges

end IncrementalLR
