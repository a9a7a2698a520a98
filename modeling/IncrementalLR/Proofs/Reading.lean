/-
**What a stream over one range shows.**

A stream over a document without empty windows hands out the bytes of its range one after the other,
whatever windows it has open and however it came to its place.  A tokenizer that only looks at the
next byte, moves on and accepts where it stands therefore reads a token, or fails, in a way that
depends on nothing but the document and the place where it starts; the tokenizers of groups are of
this kind.

Main definitions:

* `Document.byteBefore` — the byte at a position of a range;
* `Stream.Reads` — a stream that shows the bytes of a range;
* `Scan.Forward`, `Scan.reads` — scans that go forward, and the token that they read.

Main results:

* `Stream.Reads.advance`, `Stream.Reads.reset` — moving a stream;
* `Scan.run_reads` — **what a scan that goes forward reads**;
* `Group.scan_forward` — groups go forward.
-/

import IncrementalLR.Proofs.Streams

set_option relaxedAutoImplicit false
set_option autoImplicit false

namespace IncrementalLR

/-! ### Bytes and windows -/

/-- The byte at a position before `hi`. -/
def Document.byteBefore (d : Document) (hi pos : Nat) : Option UInt8 :=
  if pos < hi then d.bytes[pos]? else none

@[simp] theorem Document.byteBefore_self (d : Document) (hi : Nat) : d.byteBefore hi hi = none :=
  if_neg (Nat.lt_irrefl hi)

theorem Document.lt_of_byteBefore {d : Document} {hi pos : Nat} {b : UInt8}
    (h : d.byteBefore hi pos = some b) : pos < hi := by
  refine Decidable.byContradiction fun hge => ?_
  rw [byteBefore, if_neg hge] at h
  cases h

/-- A window that shows what the document has before `hi`. -/
def Window.Shows (w : Window) (d : Document) (hi : Nat) : Prop :=
  ∀ i < w.size, d.bytes[w.pos + i]? = d.byteBefore hi (w.pos + i)

theorem Window.shows_empty (d : Document) (hi pos : Nat) : Window.Shows ⟨pos, 0⟩ d hi := by
  intro i hlt
  exact absurd hlt (Nat.not_lt_zero i)

/-- The window that is opened at a position. -/
theorem Document.shows_window (d : Document) (hi pos : Nat) :
    ((d.window pos).cut (hi - pos)).Shows d hi := by
  intro i hlt
  have hpos : pos + i < hi := by
    simp only [window, Window.cut] at hlt
    omega
  exact (if_pos hpos).symm

theorem Window.Shows.byteIn? {w : Window} {d : Document} {hi i pos : Nat} (h : w.Shows d hi)
    (hlt : i < w.size) (hpos : w.pos + i = pos) : d.byteIn? w i = d.byteBefore hi pos := by
  rw [Document.byteIn?, if_pos hlt, h i hlt, hpos]

/-- The first byte of the window that is opened at a position. -/
theorem Document.byteIn?_opened (d : Document) (hd : d.HandsOut) (hi pos : Nat) :
    d.byteIn? ((d.window pos).cut (hi - pos)) 0 = d.byteBefore hi pos := by
  unfold byteBefore
  split
  · exact d.byteIn?_window hd (by omega)
  · exact if_neg (by simp only [Window.cut]; omega)

/-! ### Streams over one range -/

namespace Stream

/-- A stream that shows the bytes of a range of a document. -/
structure Reads (d : Document) (r : Span) (s : Stream) : Prop where
  handsOut : d.HandsOut
  doc : s.doc = d
  ranges : s.ranges = ⟨[], r, []⟩
  stop : s.stop = r.stop
  window : s.window.Shows d r.stop
  spare : s.spare.Shows d r.stop
  place : s.window.pos + s.offset = s.pos
  next : s.next = d.byteBefore r.stop s.pos

variable {d : Document} {r : Span} {s s' : Stream}

/-- Reading the byte at the position; a place outside of the window does not matter. -/
theorem reads_fetch (hd : d.HandsOut) (hdoc : s.doc = d) (hranges : s.ranges = ⟨[], r, []⟩)
    (hstop : s.stop = r.stop) (hwindow : s.window.Shows d r.stop) (hspare : s.spare.Shows d r.stop)
    (hplace : s.offset < s.window.size → s.window.pos + s.offset = s.pos) : s.fetch.Reads d r := by
  subst hdoc
  unfold fetch
  by_cases hopen : s.window.size ≤ s.offset
  · simp only [hopen, if_true]
    unfold openWindow
    by_cases hin : s.spare.contains s.pos = true
    · simp only [hin, if_true]
      simp only [Window.contains, Bool.and_eq_true, decide_eq_true_eq] at hin
      have hat : s.spare.pos + (s.pos - s.spare.pos) = s.pos := by omega
      exact ⟨hd, rfl, hranges, hstop, hspare, hwindow, hat, hspare.byteIn? (by omega) hat⟩
    · simp only [hin, Bool.false_eq_true, if_false, hranges]
      exact ⟨hd, rfl, rfl, hstop, s.doc.shows_window r.stop s.pos, hwindow, rfl,
        s.doc.byteIn?_opened hd r.stop s.pos⟩
  · have hat := hplace (by omega)
    simp only [hopen, if_false]
    exact ⟨hd, rfl, hranges, hstop, hwindow, hspare, hat, hwindow.byteIn? (by omega) hat⟩

theorem reads_start (hd : d.HandsOut) (r : Span) : (start d [r]).Reads d r :=
  reads_fetch hd rfl rfl rfl (Window.shows_empty d _ _) (Window.shows_empty d _ _)
    (fun hlt => absurd hlt (Nat.not_lt_zero 0))

/-- The stream at its end. -/
theorem reads_finished (hd : d.HandsOut) (hdoc : s.doc = d) (hranges : s.ranges = ⟨[], r, []⟩)
    (hstop : s.stop = r.stop) (hspare : s.spare.Shows d r.stop) : s.finished.Reads d r where
  handsOut := hd
  doc := hdoc
  ranges := by
    simp only [finished, hranges]
    rfl
  stop := hstop
  window := Window.shows_empty d _ _
  spare := hspare
  place := rfl
  next := by
    simp only [finished, hstop]
    exact (d.byteBefore_self r.stop).symm

namespace Reads

/-- What is known of the token does not matter. -/
theorem withToken (h : s.Reads d r) (token : Token) : { s with token }.Reads d r :=
  ⟨h.handsOut, h.doc, h.ranges, h.stop, h.window, h.spare, h.place, h.next⟩

/-- Moving on: by the end of the range the stream has stopped there, before it the byte that is
reached counts as looked at. -/
theorem advance (h : s.Reads d r) (n : Nat) :
    (s.advance n).Reads d r ∧
      (s.advance n).pos = (if r.stop ≤ s.pos + n then r.stop else s.pos + n) ∧
      (s.advance n).token = (if r.stop ≤ s.pos + n then s.token else s.token.look (s.pos + n)) := by
  have hplace := h.place
  unfold Stream.advance
  simp only [h.ranges, Ranges.advance]
  by_cases hend : r.stop ≤ s.pos + n
  · simp only [hend, if_true]
    refine ⟨?_, h.stop, rfl⟩
    exact reads_finished h.handsOut h.doc rfl h.stop h.spare
  · simp only [hend, if_false]
    refine ⟨?_, (fetch_eq _).2.2.1, (fetch_eq _).2.2.2.1⟩
    refine reads_fetch h.handsOut h.doc rfl h.stop h.window h.spare fun _ => ?_
    dsimp only
    omega

/-- Starting over at a position of the range. -/
theorem reset (h : s.Reads d r) {pos : Nat} (hpos : pos ≤ r.stop) (token : Option Token) :
    (s.reset pos token).Reads d r ∧ (s.reset pos token).pos = pos := by
  have hstop := h.stop
  have hempty : Window.Shows { s.window with size := 0 } d r.stop := Window.shows_empty d _ _
  have hseek : s.ranges.seek pos = ⟨[], r, []⟩ := by
    rw [h.ranges]
    rfl
  unfold Stream.reset
  by_cases hat : s.pos = pos
  · simp only [hat, if_true]
    exact ⟨⟨h.handsOut, h.doc, h.ranges, h.stop, h.window, h.spare, hat ▸ h.place, hat ▸ h.next⟩,
      trivial⟩
  · by_cases hend : s.stop ≤ pos
    · simp only [hat, hend, if_true, if_false]
      refine ⟨reads_finished h.handsOut h.doc h.ranges h.stop h.spare, ?_⟩
      dsimp only [finished]
      omega
    · simp only [hat, hend, if_false]
      by_cases hin : s.window.contains pos = true
      · simp only [hin, if_true]
        simp only [Window.contains, Bool.and_eq_true, decide_eq_true_eq] at hin
        refine ⟨reads_fetch h.handsOut h.doc hseek h.stop h.window h.spare fun _ => ?_, (fetch_eq _).2.2.1⟩
        dsimp only
        omega
      · simp only [hin]
        exact ⟨reads_fetch h.handsOut h.doc hseek h.stop hempty h.spare fun hlt => absurd hlt (by simp),
          (fetch_eq _).2.2.1⟩

/-- Text inside of the range. -/
theorem read_eq (h : s.Reads d r) {a b : Nat} (ha : r.start ≤ a) (hb : b ≤ r.stop) :
    s.read a b = d.read a b := by
  have hin : (decide (s.ranges.current.start ≤ a) &&
      decide (b ≤ s.ranges.current.stop)) = true := by
    simp [h.ranges, ha, hb]
  unfold Stream.read
  rw [if_pos hin, h.doc, ite_self, ite_self]

theorem clip_eq_clip (h : s.Reads d r) (h' : s'.Reads d r) (pos : Nat) :
    s.clip pos = s'.clip pos := by
  unfold clip
  rw [h.ranges, h'.ranges, h.stop, h'.stop]

/-- In a single range there is no gap to be moved out of. -/
theorem clip_eq_self (h : s.Reads d r) {pos : Nat} (hlo : r.start ≤ pos) (hhi : pos ≤ r.stop) :
    s.clip pos = pos := by
  unfold clip
  rw [h.ranges, h.stop]
  by_cases hlt : pos < r.stop
  · simp [hlo, hlt]
  · have heq : pos = r.stop := by omega
    simp [heq, Ranges.toList]

/-- Characters end where they do for every stream over the range. -/
theorem charEnd_eq (h : s.Reads d r) (h' : s'.Reads d r) (pos : Nat) :
    s.charEnd pos = s'.charEnd pos := by
  have hfrom : ∀ fuel pos, charEndF s fuel pos = charEndF s' fuel pos := by
    intro fuel
    induction fuel with
    | zero => exact fun _ => rfl
    | succ fuel ih =>
        intro pos
        rw [charEndF, charEndF, h.stop, h'.stop, h.doc, h'.doc, ih, clip_eq_clip h h']
  unfold charEnd
  rw [h.stop, h'.stop, hfrom, clip_eq_clip h h']

end Reads

end Stream

/-! ### Scans that go forward -/

namespace Token

@[simp] theorem start_look (t : Token) (pos : Nat) : (t.look pos).start = t.start := by
  unfold look
  split <;> rfl

@[simp] theorem value_look (t : Token) (pos : Nat) : (t.look pos).value = t.value := by
  unfold look
  split <;> rfl

@[simp] theorem stop_look (t : Token) (pos : Nat) : (t.look pos).stop = t.stop := by
  unfold look
  split <;> rfl

@[simp] theorem extended_look (t : Token) (pos : Nat) : (t.look pos).extended = t.extended := by
  unfold look
  split <;> rfl

/-- Tokens with the same text and terms, which may have been kept for different states. -/
structure Like (a b : Token) : Prop where
  start : a.start = b.start
  value : a.value = b.value
  extended : a.extended = b.extended
  lookAhead : a.lookAhead = b.lookAhead
  stop : a.value.isSome = true → a.stop = b.stop

theorem Like.look {a b : Token} (h : a.Like b) (pos : Nat) :
    (a.look pos).Like (b.look pos) := by
  unfold Token.look
  rw [← h.lookAhead]
  split
  · exact ⟨h.start, h.value, h.extended, rfl, h.stop⟩
  · exact h

theorem like_restart (a b : Token) (pos : Nat) : (a.restart pos).Like (b.restart pos) :=
  ⟨rfl, rfl, rfl, rfl, fun h => absurd h (by simp [restart])⟩

end Token

namespace Scan

/-- A scan that only looks at the next byte, moves on, accepts where it stands, and fails. -/
def Forward : Scan → Prop
  | done => True
  | fail _ => True
  | next k => ∀ b, (k b).Forward
  | place k => ∀ a b c, (k a b c).Forward
  | advance _ k => k.Forward
  | accept _ offset k => offset = 0 ∧ k.Forward
  | peek .. | skipWhile .. | read .. | acceptTo .. | write .. => False

/-- The token that a scan which goes forward reads in a document that ends at `hi`, or the failure
that it ends with: from a position on, with what is known of the token so far. -/
def reads (d : Document) (hi : Nat) : Scan → Nat → Token → Except Failure Token
  | fail e, _, _ => .error e
  | next k, pos, t => (k (d.byteBefore hi pos)).reads d hi pos t
  | place k, pos, t => (k (t.start.getD pos) pos hi).reads d hi pos t
  | advance n k, pos, t =>
      if hi ≤ pos + n then k.reads d hi hi t else k.reads d hi (pos + n) (t.look (pos + n))
  | accept term _ k, pos, t => k.reads d hi pos { t with value := some term, stop := pos }
  | _, _, t => .ok t

/-- **What a scan that goes forward reads** depends on the place of the stream only.  It writes
nothing, and accepts what it accepts since its token starts by its place. -/
theorem run_reads {d : Document} {r : Span} (scan : Scan) (hscan : scan.Forward) (s : Stream)
    (lines : List String) (h : s.Reads d r) (hle : s.pos ≤ r.stop)
    (hstart : ∀ a, s.token.start = some a → a ≤ s.pos) :
    match scan.reads d r.stop s.pos s.token with
    | .ok t => ∃ s', scan.run s lines = (.ok s', lines) ∧ s'.Reads d r ∧ s'.token = t
    | .error e => scan.run s lines = (.error e, lines) := by
  induction scan generalizing s with
  | done => exact ⟨s, rfl, h, rfl⟩
  | fail e => rfl
  | next k ih =>
      rw [run, reads, ← h.next]
      exact ih _ (hscan _) s h hle hstart
  | place k ih =>
      rw [run, reads, h.stop]
      exact ih _ _ _ (hscan _ _ _) s h hle hstart
  | advance n k ih =>
      obtain ⟨hreads, hpos, htoken⟩ := h.advance n
      rw [run, reads]
      by_cases hend : r.stop ≤ s.pos + n
      · rw [if_pos hend] at hpos htoken ⊢
        have key := ih hscan (s.advance n) hreads (Nat.le_of_eq hpos) <| by
          intro a ha
          rw [htoken] at ha
          exact hpos ▸ Nat.le_trans (hstart a ha) hle
        rwa [hpos, htoken] at key
      · rw [if_neg hend] at hpos htoken ⊢
        have key := ih hscan (s.advance n) hreads (by omega) <| by
          intro a ha
          rw [htoken, Token.start_look] at ha
          have := hstart a ha
          omega
        rwa [hpos, htoken] at key
  | accept term offset k ih =>
      obtain ⟨rfl, hk⟩ := hscan
      have hall : s.token.start.all (· ≤ s.pos) = true := by
        cases ha : s.token.start with
        | none => rfl
        | some a => simpa using hstart a ha
      rw [run, reads, Stream.accept_zero hall]
      exact ih hk (s.acceptTo term s.pos) (h.withToken _) hle hstart
  | peek offset k ih => exact absurd hscan id
  | skipWhile lo up k ih => exact absurd hscan id
  | read start stop k ih => exact absurd hscan id
  | acceptTo term stop k ih => exact absurd hscan id
  | write line k ih => exact absurd hscan id

/-- What is read does not depend on the state that a token was kept for. -/
theorem reads_like (d : Document) (hi : Nat) (scan : Scan) (pos : Nat) {a b : Token}
    (h : a.Like b) :
    (∃ e, scan.reads d hi pos a = .error e ∧ scan.reads d hi pos b = .error e) ∨
      ∃ x y, scan.reads d hi pos a = .ok x ∧ scan.reads d hi pos b = .ok y ∧ x.Like y := by
  induction scan generalizing pos a b with
  | fail e => exact Or.inl ⟨e, rfl, rfl⟩
  | next k ih => exact ih _ pos h
  | place k ih =>
      rw [reads, reads, h.start]
      exact ih _ _ _ pos h
  | advance n k ih =>
      rw [reads, reads]
      split
      · exact ih hi h
      · exact ih _ (h.look _)
  | accept term offset k ih => exact ih pos ⟨h.start, rfl, h.extended, h.lookAhead, fun _ => rfl⟩
  | done => exact Or.inr ⟨a, b, rfl, rfl, h⟩
  | peek offset k ih => exact Or.inr ⟨a, b, rfl, rfl, h⟩
  | skipWhile lo up k ih => exact Or.inr ⟨a, b, rfl, rfl, h⟩
  | read start stop k ih => exact Or.inr ⟨a, b, rfl, rfl, h⟩
  | acceptTo term stop k ih => exact Or.inr ⟨a, b, rfl, rfl, h⟩
  | write line k ih => exact Or.inr ⟨a, b, rfl, rfl, h⟩

/-- What is known of a token that was read: it keeps its start and its further term, and if it was
accepted between a position and the end of the document, it is still so. -/
theorem reads_keeps (d : Document) {hi lo : Nat} (scan : Scan) {pos : Nat} {t t' : Token}
    (hlo : lo ≤ pos) (hhi : pos ≤ hi) (ht : t.value.isSome = true → lo ≤ t.stop ∧ t.stop ≤ hi)
    (h : scan.reads d hi pos t = .ok t') :
    t'.start = t.start ∧ t'.extended = t.extended ∧
      (t'.value.isSome = true → lo ≤ t'.stop ∧ t'.stop ≤ hi) := by
  induction scan generalizing pos t with
  | fail e => cases h
  | next k ih => exact ih _ hlo hhi ht h
  | place k ih => exact ih _ _ _ hlo hhi ht h
  | advance n k ih =>
      rw [reads] at h
      split at h
      · exact ih (Nat.le_trans hlo hhi) (Nat.le_refl hi) ht h
      · rename_i hend
        have key := ih (by omega) (by omega) (by simpa using ht) h
        simpa using key
  | accept term offset k ih =>
      exact ih (t := { t with value := some term, stop := pos }) hlo hhi (fun _ => ⟨hlo, hhi⟩) h
  | done | peek offset k ih | skipWhile lo up k ih | read start stop k ih | acceptTo term stop k ih
  | write line k ih =>
      obtain rfl := Except.ok.inj h
      exact ⟨rfl, rfl, ht⟩

end Scan

/-- Groups go forward. -/
theorem Group.scan_forward (g : Group) (grammar : Grammar) : (g.scan grammar).Forward := by
  have hfrom : ∀ fuel state current, (g.scanF grammar fuel state current).Forward := by
    intro fuel
    induction fuel with
    | zero => exact fun _ _ => trivial
    | succ fuel ih =>
        intro state current
        have hfollow : ∀ current, (g.follow grammar fuel state current).Forward := by
          rintro current (_ | b)
          · dsimp only
            split
            · exact ih _ _
            · trivial
          · dsimp only
            split
            · exact ih _ _
            · trivial
        rw [scanF_succ]
        split
        · unfold acceptThen
          split
          · exact ⟨rfl, hfollow _⟩
          · exact hfollow _
        · trivial
  exact fun _ _ _ => hfrom _ _ _

end IncrementalLR
