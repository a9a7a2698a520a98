/-
**A token depends on the bytes that were looked at.**

While a token is read, the stream notes one past the furthest byte that was looked at.  A tokenizer
learns something of the text where it asks for the byte at the position, looks around, or moves on
and is shown the next byte, and each of these raises the mark over the byte that is shown; the byte
that lies ready when the tokenizer starts is below the mark from the beginning.  So on another
document of the same length, with the same bytes below the mark, the tokenizer gets the same answers
and does the same, whatever windows the two streams have open and whatever lies beyond the mark.

Main definitions:

* `Scan.Call`, `Scan.calls`, `Scan.last` — what a scan does, with the answers it gets, and the
  stream that it leaves;
* `Scan.Observes` — a scan that looks at single bytes only;
* `Document.AgreesBelow` — documents with the same bytes before a position;
* `Token.Becomes` — what becomes of a token while it is read;
* `Stream.Lockstep` — streams of two documents at the same place.

Main results:

* `Stream.Tracks.peek_whole`, `Stream.Tracks.advance_whole` — what an operation shows and marks as
  looked at;
* `Scan.leads_last` — the mark of a run is never lowered;
* `Stream.Lockstep.run` — two runs side by side;
* `Scan.run_determined` — **a run is determined by the bytes below its mark**.
-/

import IncrementalLR.Proofs.Gaps
import IncrementalLR.Proofs.Reading

set_option relaxedAutoImplicit false
set_option autoImplicit false

namespace IncrementalLR

/-! ### What a scan does -/

/-- Whether the byte at the position lies between two codes, -1 standing for the end. -/
def Stream.nextIn (s : Stream) (lo hi : Int) : Bool :=
  let code : Int := match s.next with
    | some b => b.toNat
    | none => -1
  lo ≤ code && code ≤ hi

theorem Stream.skipWhileF_succ (lo hi : Int) (fuel : Nat) (s : Stream) :
    skipWhileF lo hi (fuel + 1) s =
      if s.nextIn lo hi then skipWhileF lo hi fuel (s.advance 1) else s :=
  rfl

namespace Scan

/-- Something that a scan does, with the answer that it gets. -/
inductive Call where
  | next (byte : Option UInt8)
  | place (start pos stop : Nat)
  | peek (offset : Int) (byte : Option UInt8)
  | advance (n : Nat) (next : Option UInt8)
  | read (start stop : Nat) (text : String)
  /-- An accepted token with its end; none if it is refused. -/
  | accept (term : Nat) (offset : Int) (stop : Option Nat)
  | acceptTo (term stop : Nat)
  | write (line : String)
  | fail (e : Failure)
deriving Repr, DecidableEq

/-- Moving on while bytes lie between two codes: each byte is asked for before it is left. -/
def skipCalls (lo hi : Int) : Nat → Stream → List Call
  | 0, _ => []
  | fuel + 1, s =>
      .next s.next ::
        if s.nextIn lo hi then
          .advance 1 (s.advance 1).next :: skipCalls lo hi fuel (s.advance 1)
        else []

/-- Everything that a scan does on a stream, in order. -/
def calls : Scan → Stream → List Call
  | done, _ => []
  | fail e, _ => [.fail e]
  | next k, s => .next s.next :: (k s.next).calls s
  | place k, s => .place s.tokenStart s.pos s.stop :: (k s.tokenStart s.pos s.stop).calls s
  | peek offset k, s =>
      .peek offset (s.peek offset).1 :: (k (s.peek offset).1).calls (s.peek offset).2
  | advance n k, s => .advance n (s.advance n).next :: k.calls (s.advance n)
  | skipWhile lo hi k, s =>
      skipCalls lo hi (s.stop - s.pos + 1) s ++ k.calls (s.skipWhile lo hi)
  | read start stop k, s => .read start stop (s.read start stop) :: (k (s.read start stop)).calls s
  | accept term offset k, s =>
      match s.accept term offset with
      | .ok s => .accept term offset (some s.token.stop) :: k.calls s
      | .error _ => [.accept term offset none]
  | acceptTo term stop k, s => .acceptTo term stop :: k.calls (s.acceptTo term stop)
  | write line k, s => .write line :: k.calls s

/-- The stream that a scan leaves, also where it fails. -/
def last : Scan → Stream → Stream
  | done, s => s
  | fail _, s => s
  | next k, s => (k s.next).last s
  | place k, s => (k s.tokenStart s.pos s.stop).last s
  | peek offset k, s => (k (s.peek offset).1).last (s.peek offset).2
  | advance n k, s => k.last (s.advance n)
  | skipWhile lo hi k, s => k.last (s.skipWhile lo hi)
  | read start stop k, s => (k (s.read start stop)).last s
  | accept term offset k, s =>
      match s.accept term offset with
      | .ok s => k.last s
      | .error _ => s
  | acceptTo term stop k, s => k.last (s.acceptTo term stop)
  | write _ k, s => k.last s

/-- A scan that looks at single bytes only: it reads no text. -/
def Observes : Scan → Prop
  | done => True
  | fail _ => True
  | next k => ∀ b, (k b).Observes
  | place k => ∀ a b c, (k a b c).Observes
  | peek _ k => ∀ b, (k b).Observes
  | advance _ k => k.Observes
  | skipWhile _ _ k => k.Observes
  | read .. => False
  | accept _ _ k => k.Observes
  | acceptTo _ _ k => k.Observes
  | write _ k => k.Observes

/-- A scan that goes forward is one of them. -/
theorem Forward.observes {scan : Scan} (h : scan.Forward) : scan.Observes := by
  induction scan with
  | done => trivial
  | fail e => trivial
  | next k ih => exact fun b => ih b (h b)
  | place k ih => exact fun a b c => ih a b c (h a b c)
  | advance n k ih => exact ih h
  | accept term offset k ih => exact ih h.2
  | peek offset k ih => exact absurd h id
  | skipWhile lo hi k ih => exact absurd h id
  | read start stop k ih => exact absurd h id
  | acceptTo term stop k ih => exact absurd h id
  | write line k ih => exact absurd h id

end Scan

/-! ### Streams over a whole document -/

/-- The range of a whole document. -/
def Document.whole (d : Document) : List Span := [⟨0, d.size⟩]

namespace Document

variable {d : Document}

theorem ordered_whole (d : Document) : Span.Ordered d.whole where
  ends := by
    intro r hr
    obtain rfl := List.mem_singleton.1 hr
    exact Nat.zero_le _
  apart := List.pairwise_singleton _ _

theorem small_whole (h : d.size < 9223372036854775808) : Span.Small d.whole := by
  intro r hr
  obtain rfl := List.mem_singleton.1 hr
  exact h

/-- In a whole document places are positions. -/
theorem placeOf_whole {pos : Nat} (h : pos ≤ d.size) : placeOf d.whole pos = pos := by
  simp only [whole, placeOf]
  omega

theorem getElem?_positionsIn_whole (i : Nat) :
    (positionsIn d.whole)[i]? = if i < d.size then some i else none := by
  have hall : positionsIn d.whole = List.range d.size := by
    simp [whole, positionsIn, List.range_eq_range']
  rw [hall]
  split
  · rename_i hlt
    exact List.getElem?_range hlt
  · rename_i hge
    exact List.getElem?_eq_none (by rw [List.length_range]; omega)

theorem byteAt_whole (place : Int) :
    d.byteAt d.whole place = if place < 0 then none else d.bytes[place.toNat]? := by
  rw [byteAt, getElem?_positionsIn_whole]
  split
  · rfl
  · split
    · rfl
    · rename_i hge
      exact (Array.getElem?_eq_none (Nat.not_lt.1 hge)).symm

/-- Two documents have the same bytes before a position. -/
def AgreesBelow (d d' : Document) (n : Nat) : Prop := ∀ i < n, d.bytes[i]? = d'.bytes[i]?

theorem AgreesBelow.mono {d d' : Document} {m n : Nat} (h : d.AgreesBelow d' n) (hle : m ≤ n) :
    d.AgreesBelow d' m :=
  fun i hi => h i (Nat.lt_of_lt_of_le hi hle)

end Document

/-- The token with the byte at a place looked at, if the document has it. -/
def Token.lookWithin (t : Token) (size : Nat) (place : Int) : Token :=
  if 0 ≤ place ∧ place < size then t.look place.toNat else t

theorem Token.lookAhead_look (t : Token) (pos : Nat) :
    (t.look pos).lookAhead = max t.lookAhead (pos + 1) := by
  unfold look
  split
  · dsimp only
    omega
  · omega

theorem Token.Like.lookWithin {a b : Token} (h : a.Like b) (size : Nat) (place : Int) :
    (a.lookWithin size place).Like (b.lookWithin size place) := by
  unfold Token.lookWithin
  split
  · exact h.look _
  · exact h

/-- What becomes of a token while it is read: its mark is not lowered, and as long as none is
accepted its end is left alone. -/
structure Token.Becomes (a b : Token) : Prop where
  lookAhead : a.lookAhead ≤ b.lookAhead
  value : b.value = none → a.value = none
  stop : b.value = none → b.stop = a.stop

theorem Token.Becomes.refl (t : Token) : t.Becomes t := ⟨Nat.le_refl _, id, fun _ => rfl⟩

theorem Token.Becomes.trans {a b c : Token} (hab : a.Becomes b) (hbc : b.Becomes c) :
    a.Becomes c where
  lookAhead := Nat.le_trans hab.lookAhead hbc.lookAhead
  value := fun hc => hab.value (hbc.value hc)
  stop := fun hc => (hbc.stop hc).trans (hab.stop (hbc.value hc))

theorem Token.leads_lookWithin (t : Token) (size : Nat) (place : Int) :
    t.Becomes (t.lookWithin size place) := by
  unfold lookWithin
  split
  · refine ⟨?_, fun h => by rwa [value_look] at h, fun _ => stop_look t _⟩
    rw [lookAhead_look]
    exact Nat.le_max_left _ _
  · exact .refl t

theorem Token.leads_accept (t : Token) (term stop : Nat) :
    t.Becomes { t with value := some term, stop } :=
  ⟨Nat.le_refl _, fun h => absurd h (by simp), fun h => absurd h (by simp)⟩

namespace Stream.Tracks

variable {d : Document} {s : Stream}

/-- There is no other range. -/
theorem ranges_whole (h : s.Tracks d d.whole) : s.ranges = ⟨[], ⟨0, d.size⟩, []⟩ := by
  have hlist := h.ranges
  obtain ⟨⟨before, current, after⟩, hranges⟩ : ∃ r, s.ranges = r := ⟨_, rfl⟩
  rw [hranges] at hlist ⊢
  rw [Ranges.toList, Document.whole] at hlist
  cases hbefore : before.reverse with
  | nil =>
      rw [hbefore, List.nil_append] at hlist
      obtain ⟨rfl, rfl⟩ := List.cons.inj hlist
      rw [List.reverse_eq_nil_iff.1 hbefore]
  | cons r rest =>
      rw [hbefore] at hlist
      have hlen := congrArg List.length hlist
      simp at hlen

theorem stop_whole (h : s.Tracks d d.whole) : s.stop = d.size :=
  (Option.some.inj h.stop).symm

theorem pos_le_whole (h : s.Tracks d d.whole) : s.pos ≤ d.size := by
  have hle := h.le_stop
  rw [h.ranges_whole] at hle
  exact hle

theorem next_whole (h : s.Tracks d d.whole) : s.next = d.bytes[s.pos]? := by
  rw [h.next, Document.placeOf_whole h.pos_le_whole, Document.byteAt_whole, if_neg (by omega)]
  rfl

/-- Following an offset leads to every place of the document, and no further. -/
theorem resolve_whole (h : s.Tracks d d.whole) (hsmall : d.size < 9223372036854775808)
    (offset : Int) :
    s.ranges.resolve s.pos offset false =
      if 0 ≤ (s.pos : Int) + offset ∧ (s.pos : Int) + offset < d.size then
        some ((s.pos : Int) + offset).toNat
      else none := by
  rw [h.resolve_eq d.ordered_whole (Document.small_whole hsmall) offset,
    Document.placeOf_whole h.pos_le_whole, Document.getElem?_positionsIn_whole]
  by_cases hneg : (s.pos : Int) + offset < 0
  · rw [if_pos hneg, if_neg (by omega)]
  · rw [if_neg hneg]
    by_cases hlt : (s.pos : Int) + offset < d.size
    · rw [if_pos (by omega), if_pos (by omega)]
    · rw [if_neg (by omega), if_neg (by omega)]

/-- The window that is read from shows places of the document only. -/
theorem inside_whole (h : s.Tracks d d.whole) {offset : Int} (hge : 0 ≤ (s.offset : Int) + offset)
    (hlt : (s.offset : Int) + offset < s.window.size) :
    0 ≤ (s.pos : Int) + offset ∧ (s.pos : Int) + offset < d.size := by
  have hat := h.place
  rcases h.window with hzero | ⟨r, hr, -, hstop⟩
  · omega
  · obtain rfl := List.mem_singleton.1 hr
    dsimp only at hstop
    omega

/-- Looking around shows the byte at the place, if the document has it, and marks it as looked
at. -/
theorem peek_whole (h : s.Tracks d d.whole) (hsmall : d.size < 9223372036854775808)
    (hsize : d.HandsOut) (offset : Int) :
    (s.peek offset).1 = d.byteAt d.whole (s.pos + offset) ∧
      (s.peek offset).2.Tracks d d.whole ∧ (s.peek offset).2.pos = s.pos ∧
      (s.peek offset).2.token = s.token.lookWithin d.size (s.pos + offset) := by
  have hspans := d.ordered_whole
  have hspansSmall := Document.small_whole hsmall
  have hlook : s.looksOverGap offset = false := by
    rw [looksOverGap, h.ranges_whole]
    cases Ranges.resolve _ _ _ _ with
    | none => rfl
    | some pos => simp
  have hbyte := h.peek_eq hspans hspansSmall hsize offset
  rw [Document.placeOf_whole h.pos_le_whole] at hbyte
  refine ⟨hbyte, h.peek hspans hspansSmall hlook, ?_⟩
  have hresolve := h.resolve_whole hsmall offset
  unfold Stream.peek
  dsimp only
  split
  · rename_i hin
    simp only [Bool.and_eq_true, decide_eq_true_eq] at hin
    rw [Token.lookWithin, if_pos (h.inside_whole hin.1 hin.2)]
    exact ⟨rfl, rfl⟩
  · by_cases hinside : 0 ≤ (s.pos : Int) + offset ∧ (s.pos : Int) + offset < d.size
    · rw [if_pos hinside] at hresolve
      rw [hresolve, Token.lookWithin, if_pos hinside]
      dsimp only
      split
      · exact ⟨rfl, rfl⟩
      · exact ⟨rfl, rfl⟩
    · rw [if_neg hinside] at hresolve
      rw [hresolve, Token.lookWithin, if_neg hinside]
      exact ⟨rfl, rfl⟩

/-- Moving on: at the end of the document the stream has stopped, before it the byte that is reached
is marked as looked at. -/
theorem advance_whole (h : s.Tracks d d.whole) (hsize : d.HandsOut) (n : Nat) :
    (s.advance n).Tracks d d.whole ∧ (s.advance n).pos = min (s.pos + n) d.size ∧
      (s.advance n).token = s.token.lookWithin d.size (s.pos + n) := by
  obtain ⟨htracks, hpos⟩ := h.advance d.ordered_whole hsize n
  have hle := h.pos_le_whole
  have hstop := h.stop_whole
  refine ⟨htracks, ?_, ?_⟩
  · rw [hpos, Document.placeOf_whole hle, Document.getElem?_positionsIn_whole, hstop]
    split
    · rw [Option.getD_some]
      omega
    · rw [Option.getD_none]
      omega
  · unfold Stream.advance
    rw [h.ranges_whole]
    dsimp only [Ranges.advance]
    by_cases hend : d.size ≤ s.pos + n
    · rw [if_pos hend, Token.lookWithin, if_neg (by omega)]
      rfl
    · rw [if_neg hend, Token.lookWithin, if_pos (by omega)]
      exact (fetch_eq _).2.2.2.1

/-- Starting over at any position, which may lie behind the end. -/
theorem reset_whole (h : s.Tracks d d.whole) (hsize : d.HandsOut) (pos : Nat)
    (token : Option Token) :
    (s.reset pos token).Tracks d d.whole ∧ (s.reset pos token).pos = min pos d.size := by
  by_cases hle : pos ≤ d.size
  · have hclip : s.clip pos = pos := by
      rw [clip, h.ranges_whole, h.stop_whole]
      by_cases hlt : pos < d.size
      · simp [hlt]
      · have heq : pos = d.size := by omega
        simp [heq, Ranges.toList]
    refine ⟨h.reset d.ordered_whole hsize hclip token, ?_⟩
    rw [h.pos_reset d.ordered_whole hclip, Nat.min_eq_left hle]
  · have hne : s.pos ≠ pos := by
      have := h.pos_le_whole
      omega
    have hend : s.stop ≤ pos := by
      rw [h.stop_whole]
      omega
    unfold Stream.reset
    dsimp only
    rw [if_neg hne, if_pos hend]
    refine ⟨tracks_finished d.ordered_whole h.doc h.ranges h.stop h.spare, ?_⟩
    rw [Nat.min_eq_right (by omega), ← h.stop_whole]
    rfl

end Stream.Tracks

namespace Stream

variable {d : Document}

theorem start_whole (hsize : d.HandsOut) : (start d d.whole).Tracks d d.whole := by
  refine tracks_start hsize d.ordered_whole ?_
  intro hempty
  have hzero : d.size = 0 := by simpa [Span.isEmpty] using hempty
  change positionsIn d.whole = []
  simp [Document.whole, positionsIn, hzero]

/-- Whatever was done to a stream over a whole document, it hands out the text. -/
theorem after_whole (hsmall : d.size < 9223372036854775808) (hsize : d.HandsOut)
    (ops : List Operation) : ((start d d.whole).after ops).Tracks d d.whole := by
  have hfrom : ∀ (ops : List Operation) {s : Stream}, s.Tracks d d.whole →
      (s.after ops).Tracks d d.whole := by
    intro ops
    induction ops with
    | nil => exact fun h => h
    | cons op rest ih =>
        intro s h
        refine ih (s := op.run s) ?_
        cases op with
        | reset pos token => exact (h.reset_whole hsize pos token).1
        | advance n => exact (h.advance_whole hsize n).1
        | peek offset => exact (h.peek_whole hsmall hsize offset).2.1
        | accept term offset =>
            exact Operation.run_tracks d.ordered_whole (Document.small_whole hsmall) hsize h rfl rfl
  exact hfrom ops (start_whole hsize)

end Stream

/-! ### What is looked at stays looked at -/

section Marks

variable {d : Document} {s : Stream}

theorem Stream.Tracks.skip_whole (hsize : d.HandsOut) (lo hi : Int) (fuel : Nat)
    (h : s.Tracks d d.whole) :
    (Stream.skipWhileF lo hi fuel s).Tracks d d.whole ∧
      s.token.Becomes (Stream.skipWhileF lo hi fuel s).token := by
  induction fuel generalizing s with
  | zero => exact ⟨h, .refl _⟩
  | succ fuel ih =>
      rw [Stream.skipWhileF_succ]
      split
      · obtain ⟨hmoved, -, htoken⟩ := h.advance_whole hsize 1
        obtain ⟨hrest, hleads⟩ := ih hmoved
        rw [htoken] at hleads
        exact ⟨hrest, (Token.leads_lookWithin _ _ _).trans hleads⟩
      · exact ⟨h, .refl _⟩

theorem Stream.accept_eq_ok {t : Stream} {term : Nat} {offset : Int}
    (h : s.accept term offset = .ok t) : ∃ stop, t = s.acceptTo term stop := by
  unfold Stream.accept at h
  dsimp only at h
  split at h
  · split at h
    · exact ⟨_, (Except.ok.inj h).symm⟩
    · cases h
  · cases h

theorem Scan.leads_last (hsmall : d.size < 9223372036854775808) (hsize : d.HandsOut)
    (scan : Scan) (h : s.Tracks d d.whole) : s.token.Becomes (scan.last s).token := by
  induction scan generalizing s with
  | done => exact .refl _
  | fail e => exact .refl _
  | next k ih => exact ih _ h
  | place k ih => exact ih _ _ _ h
  | peek offset k ih =>
      obtain ⟨-, hlooked, -, htoken⟩ := h.peek_whole hsmall hsize offset
      have hrest := ih (s.peek offset).1 hlooked
      rw [htoken] at hrest
      exact (Token.leads_lookWithin _ _ _).trans hrest
  | advance n k ih =>
      obtain ⟨hmoved, -, htoken⟩ := h.advance_whole hsize n
      have hrest := ih hmoved
      rw [htoken] at hrest
      exact (Token.leads_lookWithin _ _ _).trans hrest
  | skipWhile lo hi k ih =>
      obtain ⟨hskipped, hleads⟩ := h.skip_whole hsize lo hi (s.stop - s.pos + 1)
      exact hleads.trans (ih hskipped)
  | read start stop k ih => exact ih _ h
  | accept term offset k ih =>
      rw [last]
      cases haccept : s.accept term offset with
      | ok t =>
          obtain ⟨stop, rfl⟩ := Stream.accept_eq_ok haccept
          have hrest := ih (s := s.acceptTo term stop) (h.withToken _)
          exact (s.token.leads_accept term stop).trans hrest
      | error e => exact .refl _
  | acceptTo term stop k ih =>
      have hrest := ih (s := s.acceptTo term stop) (h.withToken _)
      exact (s.token.leads_accept term stop).trans hrest
  | write line k ih => exact ih h

end Marks

/-! ### Two documents side by side -/

/-- Documents of one length that fits a signed word, and whose windows are not empty. -/
structure Document.Comparable (d d' : Document) : Prop where
  size_eq : d'.size = d.size
  small : d.size < 9223372036854775808
  window : d.HandsOut
  window_other : d'.HandsOut

/-- They agree in a byte that is looked at if there is one. -/
theorem Document.Comparable.getElem?_eq {d d' : Document} {i n : Nat} (hd : d.Comparable d')
    (hagree : d.AgreesBelow d' n) (hlooked : i < d.size → i < n) : d'.bytes[i]? = d.bytes[i]? := by
  by_cases hlt : i < d.size
  · exact (hagree i (hlooked hlt)).symm
  · have hend : d.bytes.size ≤ i := Nat.not_lt.1 hlt
    have hend' : d'.bytes.size ≤ i := Nat.le_trans (Nat.le_of_eq hd.size_eq) hend
    rw [Array.getElem?_eq_none hend, Array.getElem?_eq_none hend']

/-- Streams over two whole documents at the same place, with the same known of the token.  The byte
that lies ready was looked at. -/
structure Stream.Lockstep (d d' : Document) (s s' : Stream) : Prop where
  tracks : s.Tracks d d.whole
  tracks_other : s'.Tracks d' d'.whole
  pos : s'.pos = s.pos
  token : s'.token.Like s.token
  looked : s.pos < d.size → s.pos < s.token.lookAhead

namespace Stream.Lockstep

open Scan

variable {d d' : Document} {s s' : Stream}

/-- Both streams have the same byte ready. -/
theorem next (hd : d.Comparable d') (h : Lockstep d d' s s')
    (hagree : d.AgreesBelow d' s.token.lookAhead) : s'.next = s.next := by
  rw [h.tracks_other.next_whole, h.tracks.next_whole, h.pos]
  exact hd.getElem?_eq hagree h.looked

theorem stop (hd : d.Comparable d') (h : Lockstep d d' s s') : s'.stop = s.stop := by
  rw [h.tracks_other.stop_whole, h.tracks.stop_whole, hd.size_eq]

theorem tokenStart (h : Lockstep d d' s s') : s'.tokenStart = s.tokenStart := by
  rw [Stream.tokenStart, Stream.tokenStart, h.token.start, h.pos]

/-- Looking around shows the same, if the documents agree in what is looked at then. -/
theorem peek (hd : d.Comparable d') (h : Lockstep d d' s s') (offset : Int) :
    Lockstep d d' (s.peek offset).2 (s'.peek offset).2 ∧
      (d.AgreesBelow d' (s.peek offset).2.token.lookAhead →
        (s'.peek offset).1 = (s.peek offset).1) := by
  obtain ⟨hbyte, htracks, hpos, htoken⟩ := h.tracks.peek_whole hd.small hd.window offset
  obtain ⟨hbyte', htracks', hpos', htoken'⟩ :=
    h.tracks_other.peek_whole (hd.size_eq ▸ hd.small) hd.window_other offset
  rw [h.pos] at hbyte' htoken'
  refine ⟨⟨htracks, htracks', by rw [hpos, hpos', h.pos], ?_, ?_⟩, ?_⟩
  · rw [htoken, htoken', hd.size_eq]
    exact h.token.lookWithin _ _
  · intro hlt
    rw [hpos] at hlt ⊢
    rw [htoken]
    exact Nat.lt_of_lt_of_le (h.looked hlt) (Token.leads_lookWithin _ _ _).lookAhead
  · intro hagree
    rw [hbyte, hbyte', Document.byteAt_whole, Document.byteAt_whole]
    split
    · rfl
    · refine hd.getElem?_eq hagree ?_
      intro hlt
      rw [htoken, Token.lookWithin, if_pos ⟨by omega, by omega⟩, Token.lookAhead_look]
      omega

/-- Moving on leads to the same place, whatever the documents hold. -/
theorem advance (hd : d.Comparable d') (h : Lockstep d d' s s') (n : Nat) :
    Lockstep d d' (s.advance n) (s'.advance n) := by
  obtain ⟨htracks, hpos, htoken⟩ := h.tracks.advance_whole hd.window n
  obtain ⟨htracks', hpos', htoken'⟩ := h.tracks_other.advance_whole hd.window_other n
  refine ⟨htracks, htracks', ?_, ?_, ?_⟩
  · rw [hpos, hpos', h.pos, hd.size_eq]
  · rw [htoken, htoken', h.pos, hd.size_eq]
    exact h.token.lookWithin _ _
  · intro hlt
    rw [hpos] at hlt ⊢
    rw [htoken, Token.lookWithin, if_pos ⟨by omega, by omega⟩, Token.lookAhead_look]
    omega

/-- Moving on while bytes lie between two codes stops at the same place. -/
theorem skip (hd : d.Comparable d') (lo hi : Int) (fuel : Nat) (h : Lockstep d d' s s')
    (hagree : d.AgreesBelow d' (skipWhileF lo hi fuel s).token.lookAhead) :
    Lockstep d d' (skipWhileF lo hi fuel s) (skipWhileF lo hi fuel s') ∧
      skipCalls lo hi fuel s' = skipCalls lo hi fuel s := by
  induction fuel generalizing s s' with
  | zero => exact ⟨h, rfl⟩
  | succ fuel ih =>
      have hleads := (h.tracks.skip_whole hd.window lo hi (fuel + 1)).2
      have hnext := h.next hd (hagree.mono hleads.lookAhead)
      have hin : s'.nextIn lo hi = s.nextIn lo hi := by rw [nextIn, nextIn, hnext]
      rw [skipWhileF_succ] at hagree ⊢
      rw [skipWhileF_succ, skipCalls, skipCalls, hnext, hin]
      split
      · rename_i hyes
        rw [if_pos hyes] at hagree
        have hmoved := h.advance hd 1
        obtain ⟨hrest, hcalls⟩ := ih hmoved hagree
        have hleads := (hmoved.tracks.skip_whole hd.window lo hi fuel).2
        rw [hcalls, hmoved.next hd (hagree.mono hleads.lookAhead)]
        exact ⟨hrest, rfl⟩
      · exact ⟨h, rfl⟩

/-- A token is accepted with the same end, or refused. -/
theorem accept (hd : d.Comparable d') (h : Lockstep d d' s s') (term : Nat) (offset : Int) :
    (∃ stop, s.accept term offset = .ok (s.acceptTo term stop) ∧
        s'.accept term offset = .ok (s'.acceptTo term stop)) ∨
      ∃ e, s.accept term offset = .error e ∧ s'.accept term offset = .error e := by
  have hstop : (if offset = 0 then some s'.pos else s'.ranges.resolve s'.pos offset true) =
      if offset = 0 then some s.pos else s.ranges.resolve s.pos offset true := by
    rw [h.pos, h.tracks_other.ranges_whole, h.tracks.ranges_whole, hd.size_eq]
  have hstart : s'.tokenStart = s.tokenStart := h.tokenStart
  unfold Stream.accept
  rw [hstop]
  generalize (if offset = 0 then some s.pos else s.ranges.resolve s.pos offset true) = stop
  cases stop with
  | none => exact .inr ⟨_, rfl, by rw [hstart]⟩
  | some stop =>
      have hall : s'.token.start.all (· ≤ stop) = s.token.start.all (· ≤ stop) := by
        rw [h.token.start]
      by_cases hge : s.token.start.all (· ≤ stop) = true
      · exact .inl ⟨stop, if_pos hge, if_pos (hall.trans hge)⟩
      · refine .inr ⟨_, if_neg hge, (if_neg (hall ▸ hge)).trans ?_⟩
        rw [hstart]

theorem acceptTo (h : Lockstep d d' s s') (term stop : Nat) :
    Lockstep d d' (s.acceptTo term stop) (s'.acceptTo term stop) :=
  ⟨h.tracks.withToken _, h.tracks_other.withToken _, h.pos,
    ⟨h.token.start, rfl, h.token.extended, h.token.lookAhead, fun _ => rfl⟩, h.looked⟩

/-- **Two runs side by side**: if the documents agree in all that the one run looks at, the other
run does the same. -/
theorem run (hd : d.Comparable d') {scan : Scan} (hscan : scan.Observes)
    (h : Lockstep d d' s s') (hagree : d.AgreesBelow d' (scan.last s).token.lookAhead)
    (lines : List String) :
    scan.calls s' = scan.calls s ∧ (scan.last s').token.Like (scan.last s).token ∧
      scan.run s' lines =
        ((scan.run s lines).1.map fun _ => scan.last s', (scan.run s lines).2) := by
  -- what the rest of the run looks at covers what was looked at until now
  have hbelow : ∀ {k : Scan} {t t' : Stream}, Lockstep d d' t t' →
      d.AgreesBelow d' (k.last t).token.lookAhead → d.AgreesBelow d' t.token.lookAhead :=
    fun ht hk => hk.mono (Scan.leads_last hd.small hd.window _ ht.tracks).lookAhead
  induction scan generalizing s s' lines with
  | done => exact ⟨rfl, h.token, rfl⟩
  | fail e => exact ⟨rfl, h.token, rfl⟩
  | next k ih =>
      have hnext := h.next hd (hbelow h (k := k s.next) hagree)
      obtain ⟨hcalls, htoken, hrun⟩ := ih s.next (hscan _) h hagree lines
      simp only [calls, last, Scan.run, hnext]
      exact ⟨by rw [hcalls], htoken, hrun⟩
  | place k ih =>
      obtain ⟨hcalls, htoken, hrun⟩ := ih s.tokenStart s.pos s.stop (hscan _ _ _) h hagree lines
      simp only [calls, last, Scan.run, h.tokenStart, h.pos, h.stop hd]
      exact ⟨by rw [hcalls], htoken, hrun⟩
  | peek offset k ih =>
      obtain ⟨hlooked, hshown⟩ := h.peek hd offset
      have hbyte := hshown (hbelow hlooked (k := k (s.peek offset).1) hagree)
      obtain ⟨hcalls, htoken, hrun⟩ := ih (s.peek offset).1 (hscan _) hlooked hagree lines
      simp only [calls, last, Scan.run, hbyte]
      exact ⟨by rw [hcalls], htoken, hrun⟩
  | advance n k ih =>
      have hmoved := h.advance hd n
      have hnext := hmoved.next hd (hbelow hmoved (k := k) hagree)
      obtain ⟨hcalls, htoken, hrun⟩ := ih hscan hmoved hagree lines
      simp only [calls, last, Scan.run, hnext]
      exact ⟨by rw [hcalls], htoken, hrun⟩
  | skipWhile lo hi k ih =>
      have hfuel : s'.stop - s'.pos + 1 = s.stop - s.pos + 1 := by rw [h.stop hd, h.pos]
      have hmark := Scan.leads_last hd.small hd.window k
        (h.tracks.skip_whole hd.window lo hi (s.stop - s.pos + 1)).1
      obtain ⟨hskipped, hmoves⟩ :=
        h.skip hd lo hi (s.stop - s.pos + 1) (hagree.mono hmark.lookAhead)
      have hother : s'.skipWhile lo hi = skipWhileF lo hi (s.stop - s.pos + 1) s' := by
        rw [skipWhile, hfuel]
      obtain ⟨hcalls, htoken, hrun⟩ := ih hscan hskipped hagree lines
      simp only [calls, last, Scan.run, hfuel, hmoves, hother]
      exact ⟨congrArg _ hcalls, htoken, hrun⟩
  | read start stop k ih => exact absurd hscan id
  | accept term offset k ih =>
      rcases h.accept hd term offset with ⟨stop, hok, hok'⟩ | ⟨e, herr, herr'⟩
      · simp only [calls, last, Scan.run, hok, hok'] at hagree ⊢
        obtain ⟨hcalls, htoken, hrun⟩ := ih hscan (h.acceptTo term stop) hagree lines
        exact ⟨congrArg _ hcalls, htoken, hrun⟩
      · simp only [calls, last, Scan.run, herr, herr']
        exact ⟨trivial, h.token, rfl⟩
  | acceptTo term stop k ih =>
      obtain ⟨hcalls, htoken, hrun⟩ := ih hscan (h.acceptTo term stop) hagree lines
      exact ⟨congrArg (List.cons _) hcalls, htoken, hrun⟩
  | write line k ih =>
      obtain ⟨hcalls, htoken, hrun⟩ := ih hscan h hagree (line :: lines)
      exact ⟨congrArg (List.cons _) hcalls, htoken, hrun⟩

/-- Streams that were used in any way are at the same place once they start over there. -/
theorem of_reset (hd : d.Comparable d') (h : s.Tracks d d.whole) (h' : s'.Tracks d' d'.whole)
    (pos : Nat) (token token' : Token) :
    Lockstep d d' (s.reset pos (some token)) (s'.reset pos (some token')) := by
  obtain ⟨htracks, hpos⟩ := h.reset_whole hd.window pos (some token)
  obtain ⟨htracks', hpos'⟩ := h'.reset_whole hd.window_other pos (some token')
  refine ⟨htracks, htracks', by rw [hpos, hpos', hd.size_eq], ?_, ?_⟩
  · rw [token_reset, token_reset]
    exact Token.like_restart _ _ _
  · intro _
    rw [hpos, token_reset]
    exact Nat.lt_succ_of_le (Nat.min_le_left _ _)

end Stream.Lockstep

/-! ### Runs and their marks -/

namespace Scan

/-- **A run is determined by the bytes below its mark.**  The tokenizers of groups look at single
bytes only.  Take any tokenizer that does, two documents of one length, a stream over all of each
that was used in any way, and start over at one position.  If the documents have the same bytes
below the mark that the run on the first leaves, then the run on the second does the same with the
same answers.  It accepts the same term with the same end and leaves the same mark, and it fails
where the other fails. -/
theorem run_determined :
    (∀ (g : Group) (grammar : Grammar), (g.scan grammar).Observes) ∧
      ∀ scan : Scan, scan.Observes → ∀ d d' : Document, d.Comparable d' →
        ∀ (ops ops' : List Stream.Operation) (pos : Nat) (token token' : Token) (lines : List String),
          let a := ((Stream.start d d.whole).after ops).reset pos (some token)
          let a' := ((Stream.start d' d'.whole).after ops').reset pos (some token')
          d.AgreesBelow d' (scan.last a).token.lookAhead →
            scan.calls a' = scan.calls a ∧
            (scan.last a').token.Like (scan.last a).token ∧
            (token'.stop = token.stop →
              (scan.last a').token.stop = (scan.last a).token.stop) ∧
            scan.run a' lines =
              ((scan.run a lines).1.map fun _ => scan.last a', (scan.run a lines).2) := by
  refine ⟨fun g grammar => (g.scan_forward grammar).observes, ?_⟩
  intro scan hscan d d' hd ops ops' pos token token' lines a a' hagree
  have hsmall : d'.size < 9223372036854775808 := hd.size_eq ▸ hd.small
  have ha : Stream.Lockstep d d' a a' :=
    .of_reset hd (Stream.after_whole hd.small hd.window ops)
      (Stream.after_whole hsmall hd.window_other ops') pos token token'
  obtain ⟨hcalls, htoken, hrun⟩ := ha.run hd hscan hagree lines
  refine ⟨hcalls, htoken, ?_, hrun⟩
  intro hstop
  cases hvalue : (scan.last a').token.value with
  | some term => exact htoken.stop (by rw [hvalue]; rfl)
  | none =>
      -- neither run accepts anything, and the ends are those given
      have hleft := (leads_last hd.small hd.window scan ha.tracks).stop (htoken.value ▸ hvalue)
      have hleft' := (leads_last hsmall hd.window_other scan ha.tracks_other).stop hvalue
      rw [hleft, hleft', Stream.token_reset, Stream.token_reset]
      exact hstop

/-- Four bytes of which three are looked at: the other document ends with another byte, is handed
out in smaller windows, and its stream has been moved to the end before. -/
theorem run_determined_four :
    let d : Document := { bytes := #[97, 98, 99, 100] }
    let d' : Document := { bytes := #[97, 98, 99, 101], windowSize := fun _ => 2 }
    let scan : Scan := .next fun _ => .advance 2 (.peek (-1) fun _ => .accept 7 0 .done)
    let a := ((Stream.start d d.whole).after []).reset 0 (some {})
    let a' := ((Stream.start d' d'.whole).after [.advance 4]).reset 0 (some { stop := 4 })
    scan.Observes ∧ d.Comparable d' ∧ d.AgreesBelow d' (scan.last a).token.lookAhead ∧
      scan.calls a' = scan.calls a ∧ (scan.last a').token.Like (scan.last a).token ∧
      scan.run a' [] = ((scan.run a []).1.map fun _ => scan.last a', (scan.run a []).2) ∧
      (scan.last a').token.value = some 7 ∧ (scan.last a').token.stop = 2 ∧
      (scan.last a').token.lookAhead = 3 := by
  intro d d' scan a a'
  have hscan : scan.Observes := fun _ _ => trivial
  have hd : d.Comparable d' := ⟨rfl, by decide, by decide, by decide⟩
  have hmark : (scan.last a).token.lookAhead = 3 := by decide +kernel
  have hagree : d.AgreesBelow d' (scan.last a).token.lookAhead := by
    rw [hmark]
    exact (by decide : ∀ i < 3, d.bytes[i]? = d'.bytes[i]?)
  obtain ⟨hcalls, htoken, -, hrun⟩ :=
    run_determined.2 scan hscan d d' hd [] [.advance 4] 0 {} { stop := 4 } [] hagree
  have hvalue : (scan.last a).token.value = some 7 := by decide +kernel
  have hstop : (scan.last a).token.stop = 2 := by decide +kernel
  refine ⟨hscan, hd, hagree, hcalls, htoken, hrun, ?_, ?_, ?_⟩
  · rw [htoken.value, hvalue]
  · rw [htoken.stop (by rw [htoken.value, hvalue]; rfl), hstop]
  · rw [htoken.lookAhead, hmark]

end Scan

end IncrementalLR
