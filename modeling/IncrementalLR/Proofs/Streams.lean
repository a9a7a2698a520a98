/-
**Streams stay inside of their ranges.**

Whatever a tokenizer does with a stream, the stream keeps its ranges and never passes the end of the
last one.  A token that is accepted at an offset from the position therefore ends inside of the
ranges, and not before it starts.  The ends of characters and the positions moved out of gaps obey
the same bounds, so that every step through a document gets on and none gets too far.

Main definitions:

* `Stream.Covers` — a stream over given ranges;
* `Token.Pending` — a token that is being read from a place on;
* `Tokenizer.NeverEmpty` — a tokenizer without tokens of no text.

Main results:

* `Stream.le_clip`, `Stream.clip_le`, `Stream.lt_charEnd`, `Stream.charEnd_le` — the bounds of
  clipped positions and of characters;
* `Scan.run_covers` — **a scan that accepts by offsets only stays inside of the ranges**.
-/

import IncrementalLR.Lexer.Tokenizer

set_option relaxedAutoImplicit false
set_option autoImplicit false

namespace IncrementalLR

/-- Ranges of which none ends before it starts or reaches past a position. -/
def Span.AllBelow (hi : Nat) (spans : List Span) : Prop :=
  ∀ r ∈ spans, r.start ≤ r.stop ∧ r.stop ≤ hi

/-! ### Moving between ranges -/

namespace Ranges

theorem toList_seekForth (pos : Nat) (before : List Span) (cur : Span) (after : List Span) :
    (seekForth pos before cur after).toList = before.reverse ++ cur :: after := by
  induction after generalizing before cur with
  | nil => rfl
  | cons r rest ih =>
      rw [seekForth]
      split
      · rw [ih]
        simp
      · rfl

theorem toList_seekBack (pos : Nat) (before : List Span) (cur : Span) (after : List Span) :
    (seekBack pos before cur after).toList = before.reverse ++ cur :: after := by
  induction before generalizing cur after with
  | nil => rfl
  | cons r rest ih =>
      rw [seekBack]
      split
      · rw [ih]
        simp
      · rfl

@[simp] theorem toList_seek (r : Ranges) (pos : Nat) : (r.seek pos).toList = r.toList := by
  rw [seek, onward, toList_seekForth]
  exact toList_seekBack pos r.before r.current r.after

theorem current_mem (r : Ranges) : r.current ∈ r.toList := by
  simp [toList]

/-- Going on keeps the ranges, and ends before the end of one of them. -/
theorem advance_eq_some {before after : List Span} {cur : Span} {pos n q : Nat} {r : Ranges}
    (h : advance before cur after pos n = some (q, r)) :
    r.toList = before.reverse ++ cur :: after ∧ q < r.current.stop := by
  induction after generalizing before cur pos n with
  | nil =>
      rw [advance] at h
      split at h
      · cases h
      · cases h
        exact ⟨rfl, by dsimp only; omega⟩
  | cons next rest ih =>
      rw [advance] at h
      split at h
      · have key := ih h
        simpa using key
      · cases h
        exact ⟨rfl, by dsimp only; omega⟩

/-- Following a position back keeps the ranges. -/
theorem back_eq_some {before after : List Span} {cur : Span} {pos q : Int} {r : Ranges}
    (h : back before cur after pos = some (q, r)) :
    r.toList = before.reverse ++ cur :: after := by
  induction before generalizing cur after pos with
  | nil =>
      rw [back] at h
      split at h
      · cases h
      · cases h
        rfl
  | cons prev rest ih =>
      rw [back] at h
      split at h
      · have key := ih h
        simpa using key
      · cases h
        rfl

/-- Following a position forth ends by the end of one of the ranges. -/
theorem forth_eq_some {after : List Span} {cur : Span} {pos q : Int} {atEnd : Bool}
    (h : forth atEnd after cur pos = some q) : ∃ r ∈ cur :: after, q ≤ signedPos r.stop := by
  have inside : ∀ r : Span, ¬ isBehind atEnd r q = true → q ≤ signedPos r.stop := by
    intro r hr
    unfold isBehind at hr
    split at hr <;> simp only [decide_eq_true_eq] at hr <;> omega
  induction after generalizing cur pos with
  | nil =>
      rw [forth] at h
      split at h
      · cases h
      · rename_i hb
        cases h
        exact ⟨cur, List.mem_cons_self, inside cur hb⟩
  | cons next rest ih =>
      rw [forth] at h
      split at h
      · obtain ⟨r, hr, hle⟩ := ih h
        exact ⟨r, List.mem_cons_of_mem _ hr, hle⟩
      · rename_i hb
        cases h
        exact ⟨cur, List.mem_cons_self, inside cur hb⟩

/-- The position at an offset does not lie past the ranges. -/
theorem resolve_le {r : Ranges} {hi pos q : Nat} {offset : Int} {atEnd : Bool}
    (hb : Span.AllBelow hi r.toList) (h : r.resolve pos offset atEnd = some q) : q ≤ hi := by
  unfold resolve at h
  split at h
  · cases h
  · rename_i p place hback
    obtain ⟨x, hx, hq⟩ := Option.bind_eq_some_iff.1 h
    obtain ⟨s, hs, hle⟩ := forth_eq_some hx
    split at hq
    · cases hq
    · obtain rfl := Option.some.inj hq
      have hmem : s ∈ r.toList := by
        rw [toList, ← back_eq_some hback, toList]
        exact List.mem_append_right _ hs
      have hstop := (hb s hmem).2
      unfold signedPos at hle
      split at hle <;> omega

end Ranges

/-! ### The place of a stream -/

/-- A token that is being read from `a` on: its end is known as soon as a term is accepted. -/
structure Token.Pending (hi a : Nat) (t : Token) : Prop where
  start : t.start = some a
  ends : t.value.isSome = true → a ≤ t.stop ∧ t.stop ≤ hi

theorem Token.Pending.look {hi a : Nat} {t : Token} (h : t.Pending hi a) (pos : Nat) :
    (t.look pos).Pending hi a := by
  unfold Token.look
  split
  · exact ⟨h.start, h.ends⟩
  · exact h

namespace Stream

/-- A stream over some ranges that stands by their end, which is `hi`, and has no byte there. -/
structure Covers (spans : List Span) (hi : Nat) (s : Stream) : Prop where
  ranges : s.ranges.toList = spans
  stop : s.stop = hi
  pos_le : s.pos ≤ hi
  ended : s.pos = hi → s.next = none

variable {spans : List Span} {hi : Nat} {s : Stream}

/-- Where there is a byte the end is not reached. -/
theorem Covers.lt_of_next {b : UInt8} (h : s.Covers spans hi) (hnext : s.next = some b) :
    s.pos < hi := by
  refine Nat.lt_of_le_of_ne h.pos_le fun heq => ?_
  rw [h.ended heq] at hnext
  cases hnext

/-- Windows and what is known of the token do not matter. -/
theorem Covers.congr {t : Stream} (h : s.Covers spans hi) (hr : t.ranges = s.ranges)
    (hs : t.stop = s.stop) (hp : t.pos = s.pos) (hn : t.next = s.next) : t.Covers spans hi where
  ranges := hr ▸ h.ranges
  stop := hs ▸ h.stop
  pos_le := hp ▸ h.pos_le
  ended := by
    rw [hp, hn]
    exact h.ended

/-- Reading the byte at the position touches neither ranges nor position nor token. -/
theorem fetch_eq (s : Stream) :
    s.fetch.ranges = s.ranges ∧ s.fetch.stop = s.stop ∧ s.fetch.pos = s.pos ∧
      s.fetch.token = s.token ∧ s.fetch.doc = s.doc := by
  unfold fetch openWindow
  simp only
  split
  · split <;> exact ⟨rfl, rfl, rfl, rfl, rfl⟩
  · exact ⟨rfl, rfl, rfl, rfl, rfl⟩

/-- Reading a byte before the end. -/
theorem Covers.fetch (hr : s.ranges.toList = spans) (hs : s.stop = hi) (hp : s.pos < hi) :
    s.fetch.Covers spans hi := by
  obtain ⟨hr', hs', hp', -, -⟩ := s.fetch_eq
  refine ⟨hr' ▸ hr, hs' ▸ hs, ?_, ?_⟩
  · omega
  · intro he
    omega

theorem Covers.finished (hr : s.ranges.toList = spans) (hs : s.stop = hi) :
    s.finished.Covers spans hi :=
  ⟨by simp [Stream.finished, hr], hs, Nat.le_of_eq hs, fun _ => rfl⟩

/-- Looking around only notes how far was looked. -/
theorem peek_eq (s : Stream) (offset : Int) :
    (s.peek offset).2.ranges = s.ranges ∧ (s.peek offset).2.stop = s.stop ∧
      (s.peek offset).2.pos = s.pos ∧ (s.peek offset).2.next = s.next ∧
      ((s.peek offset).2.token = s.token ∨ ∃ pos, (s.peek offset).2.token = s.token.look pos) := by
  unfold peek
  simp only
  split
  · exact ⟨rfl, rfl, rfl, rfl, Or.inr ⟨_, rfl⟩⟩
  · split
    · exact ⟨rfl, rfl, rfl, rfl, Or.inl rfl⟩
    · split <;> exact ⟨rfl, rfl, rfl, rfl, Or.inr ⟨_, rfl⟩⟩

/-- What moving on keeps. -/
theorem advance_covers (hb : Span.AllBelow hi spans) (h : s.Covers spans hi) (n : Nat) :
    (s.advance n).Covers spans hi ∧
      ((s.advance n).token = s.token ∨ ∃ pos, (s.advance n).token = s.token.look pos) := by
  unfold advance
  simp only
  split
  · exact ⟨.finished h.ranges h.stop, Or.inl rfl⟩
  · rename_i pos ranges hadv
    obtain ⟨hlist, hlt⟩ := Ranges.advance_eq_some hadv
    have hranges : ranges.toList = spans := hlist.trans h.ranges
    refine ⟨Covers.fetch hranges h.stop ?_, Or.inr ⟨pos, ?_⟩⟩
    · have := (hb _ (hranges ▸ ranges.current_mem)).2
      dsimp only
      omega
    · exact (fetch_eq _).2.2.2.1

/-- In a whole document a byte is left behind by moving on. -/
theorem lt_pos_advance {lo n : Nat} (h : s.Covers [⟨lo, hi⟩] hi)
    (hpos : s.pos < hi) (hn : 0 < n) : s.pos < (s.advance n).pos := by
  have hstop := h.stop
  have hranges := h.ranges
  unfold advance
  simp only
  split
  · exact hstop.symm ▸ hpos
  · rename_i pos ranges hnext
    generalize s.ranges = r at hnext hranges
    obtain ⟨before, cur, after⟩ := r
    obtain ⟨rfl, rfl⟩ : before = [] ∧ after = [] := by
      have key := congrArg List.length hranges
      simp only [Ranges.toList, List.length_append, List.length_reverse, List.length_cons,
        List.length_nil] at key
      exact ⟨List.eq_nil_of_length_eq_zero (by omega), List.eq_nil_of_length_eq_zero (by omega)⟩
    simp only [Ranges.advance] at hnext
    split at hnext
    · cases hnext
    · cases hnext
      rw [(fetch_eq _).2.2.1]
      exact Nat.lt_add_of_pos_right hn

theorem skipWhileF_covers (hb : Span.AllBelow hi spans) (lo up : Int) {a : Nat} (fuel : Nat)
    (s : Stream) (h : s.Covers spans hi) (ht : s.token.Pending hi a) :
    (skipWhileF lo up fuel s).Covers spans hi ∧
      (skipWhileF lo up fuel s).token.Pending hi a := by
  induction fuel generalizing s with
  | zero => exact ⟨h, ht⟩
  | succ fuel ih =>
      have hstep : skipWhileF lo up (fuel + 1) s = skipWhileF lo up fuel (s.advance 1) ∨
          skipWhileF lo up (fuel + 1) s = s := by
        rw [skipWhileF]
        split <;> split <;> simp
      rcases hstep with heq | heq
      · obtain ⟨hc, htoken⟩ := advance_covers hb h 1
        rw [heq]
        refine ih _ hc ?_
        rcases htoken with heq | ⟨pos, heq⟩
        · rw [heq]
          exact ht
        · rw [heq]
          exact ht.look pos
      · rw [heq]
        exact ⟨h, ht⟩

/-- Starting over anywhere; past the end it is at the end. -/
theorem Covers.reset (h : s.Covers spans hi) (pos : Nat) (token : Option Token) :
    (s.reset pos token).Covers spans hi := by
  have hstop := h.stop
  unfold Stream.reset
  simp only
  split
  · exact h.congr rfl rfl rfl rfl
  · split
    · exact .finished h.ranges h.stop
    · rename_i hlt
      have hlt : pos < hi := by omega
      split
      · exact .fetch (by simp [h.ranges]) h.stop hlt
      · exact .fetch (by simp [h.ranges]) h.stop hlt

theorem token_reset (s : Stream) (pos : Nat) (token : Option Token) :
    (s.reset pos token).token = (token.map (·.restart pos)).getD {} := by
  unfold reset
  simp only
  split
  · rfl
  · split
    · rfl
    · split <;> exact (fetch_eq _).2.2.2.1

theorem pos_reset (h : s.Covers spans hi) {pos : Nat} (hpos : pos ≤ hi) (token : Option Token) :
    (s.reset pos token).pos = pos := by
  have hstop := h.stop
  unfold reset
  simp only
  split
  · rename_i heq
    exact heq
  · split
    · rename_i hle
      dsimp only [finished]
      omega
    · split <;> exact (fetch_eq _).2.2.1

/-- A token that is accepted at the position ends there. -/
theorem stop_of_accept {s' : Stream} {term : Nat} (h : s.accept term 0 = .ok s') :
    s'.token.stop = s.pos := by
  simp only [accept, if_true] at h
  split at h
  · obtain rfl := Except.ok.inj h
    rfl
  · cases h

/-- A token that is accepted at an offset ends inside of the ranges and not before it starts; what
cannot be accepted is no error of the document. -/
theorem accept_covers (hb : Span.AllBelow hi spans) (h : s.Covers spans hi) {a : Nat}
    (ht : s.token.Pending hi a) (term : Nat) (offset : Int) :
    match s.accept term offset with
    | .ok s' => s'.Covers spans hi ∧ s'.token.Pending hi a
    | .error e => e.isSyntax = false := by
  unfold accept
  dsimp only
  generalize hstop : (if offset = 0 then some s.pos else s.ranges.resolve s.pos offset true) = stop
  cases stop with
  | none => rfl
  | some stop =>
      dsimp only
      by_cases hle : s.token.start.all (· ≤ stop) = true
      · rw [if_pos hle]
        refine ⟨h.congr rfl rfl rfl rfl, ht.start, fun _ => ⟨?_, ?_⟩⟩
        · simpa [ht.start] using hle
        · split at hstop
          · cases hstop
            exact h.pos_le
          · exact Ranges.resolve_le (h.ranges.symm ▸ hb) hstop
      · rw [if_neg hle]
        rfl

/-- The stream at the start of its ranges. -/
theorem start_covers {doc : Document} {first : Span} {rest : List Span}
    (hb : Span.AllBelow hi (first :: rest))
    (hs : (Ranges.ofList (first :: rest)).toLast.current.stop = hi) :
    (start doc (first :: rest)).Covers (first :: rest) hi := by
  have hfirst := hb first List.mem_cons_self
  rcases Nat.lt_or_ge first.start hi with hlt | hge
  · exact Covers.fetch rfl hs hlt
  · -- All ranges are empty, and so is the window that is opened.
    refine ⟨?_, ?_, ?_, fun _ => ?_⟩
    · rw [start, (fetch_eq _).1]
      rfl
    · rw [start, (fetch_eq _).2.1]
      exact hs
    · rw [start, (fetch_eq _).2.2.1]
      exact Nat.le_trans hfirst.1 hfirst.2
    · have hzero : first.stop - first.start = 0 := by omega
      simp [start, fetch, openWindow, Window.contains, Window.cut, Ranges.ofList, Document.byteIn?,
        hzero]

/-! ### Gaps and characters -/

/-- Positions up to the end of the ranges are only moved on, and by their end. -/
theorem le_clip (h : s.Covers spans hi) {pos : Nat} (hpos : pos ≤ hi) : pos ≤ s.clip pos := by
  unfold clip
  split
  · exact Nat.le_refl _
  · split
    · exact Nat.le_max_left _ _
    · exact h.stop ▸ hpos

theorem clip_le (hb : Span.AllBelow hi spans) (h : s.Covers spans hi) (pos : Nat) :
    s.clip pos ≤ hi := by
  unfold clip
  split
  · rename_i hin
    have := hb _ (h.ranges ▸ s.ranges.current_mem)
    simp only [Bool.and_eq_true, decide_eq_true_eq] at hin
    omega
  · split
    · rename_i r hr
      have := hb r (h.ranges ▸ List.mem_of_find?_eq_some hr)
      have hlt := List.find?_some hr
      simp only [decide_eq_true_eq] at hlt
      omega
    · exact Nat.le_of_eq h.stop

/-- In a single range there is no gap to be moved out of. -/
theorem clip_eq {lo : Nat} (h : s.Covers [⟨lo, hi⟩] hi) {pos : Nat} (hlo : lo ≤ pos)
    (hpos : pos ≤ hi) : s.clip pos = pos := by
  unfold clip
  split
  · rfl
  · rw [h.ranges]
    by_cases hlt : pos < hi
    · simp [hlt, hlo]
    · have hstop := h.stop
      simp only [List.find?_cons, hlt, decide_false, List.find?_nil]
      omega

theorem charEndF_bounds (hb : Span.AllBelow hi spans) (h : s.Covers spans hi) (fuel : Nat)
    {pos : Nat} (hpos : pos ≤ hi) : pos ≤ charEndF s fuel pos ∧ charEndF s fuel pos ≤ hi := by
  induction fuel generalizing pos with
  | zero => exact ⟨Nat.le_refl _, hpos⟩
  | succ fuel ih =>
      rw [charEndF]
      split
      · rename_i hcont
        simp only [Bool.and_eq_true, decide_eq_true_eq] at hcont
        have hstop := h.stop
        have hclip : pos + 1 ≤ s.clip (pos + 1) := le_clip h (by omega)
        have key := ih (clip_le hb h (pos + 1))
        omega
      · exact ⟨Nat.le_refl _, hpos⟩

/-- A character has an end, by the end of the ranges. -/
theorem charEnd_le (hb : Span.AllBelow hi spans) (h : s.Covers spans hi) (pos : Nat) :
    s.charEnd pos ≤ hi :=
  (charEndF_bounds hb h _ (clip_le hb h _)).2

theorem lt_charEnd (hb : Span.AllBelow hi spans) (h : s.Covers spans hi) {pos : Nat}
    (hpos : pos < hi) : pos < s.charEnd pos :=
  Nat.lt_of_lt_of_le (le_clip h hpos) (charEndF_bounds hb h _ (clip_le hb h _)).1

theorem le_charEnd (hb : Span.AllBelow hi spans) (h : s.Covers spans hi) {pos : Nat}
    (hpos : pos ≤ hi) : pos ≤ s.charEnd pos := by
  rcases Nat.lt_or_ge pos hi with hlt | hge
  · exact Nat.le_of_lt (lt_charEnd hb h hlt)
  · obtain rfl : pos = hi := by omega
    have hclip : s.clip (pos + 1) = pos := by
      have := clip_le hb h (pos + 1)
      unfold clip
      split
      · rename_i hin
        have := hb _ (h.ranges ▸ s.ranges.current_mem)
        simp only [Bool.and_eq_true, decide_eq_true_eq] at hin
        omega
      · split
        · rename_i r hr
          have := hb r (h.ranges ▸ List.mem_of_find?_eq_some hr)
          have hlt := List.find?_some hr
          simp only [decide_eq_true_eq] at hlt
          omega
        · exact h.stop
    have key := (charEndF_bounds hb h (s.stop - pos) (clip_le hb h (pos + 1))).1
    rw [hclip] at key
    unfold charEnd
    rw [hclip]
    exact key

end Stream

/-! ### Scans -/

/-- **A scan that accepts by offsets only stays inside of the ranges.**  The token that it leaves
ends between its start and the end of the ranges. -/
theorem Scan.run_covers {spans : List Span} {hi a : Nat} (hb : Span.AllBelow hi spans) (scan : Scan)
    (hscan : scan.OnlyAccepts) (s : Stream) (lines : List String) (h : s.Covers spans hi)
    (ht : s.token.Pending hi a) :
    match (scan.run s lines).1 with
    | .ok s' => s'.Covers spans hi ∧ s'.token.Pending hi a
    | .error _ => True := by
  induction scan generalizing s lines with
  | done => exact ⟨h, ht⟩
  | fail e => trivial
  | next k ih => exact ih _ (hscan _) s lines h ht
  | place k ih => exact ih _ _ _ (hscan _ _ _) s lines h ht
  | peek offset k ih =>
      obtain ⟨hr, hs, hp, hn, htoken⟩ := s.peek_eq offset
      refine ih _ (hscan _) _ lines (h.congr hr hs hp hn) ?_
      rcases htoken with heq | ⟨pos, heq⟩
      · rw [heq]
        exact ht
      · rw [heq]
        exact ht.look pos
  | advance n k ih =>
      obtain ⟨hc, htoken⟩ := Stream.advance_covers hb h n
      refine ih hscan _ lines hc ?_
      rcases htoken with heq | ⟨pos, heq⟩
      · rw [heq]
        exact ht
      · rw [heq]
        exact ht.look pos
  | skipWhile lo up k ih =>
      obtain ⟨hc, hpending⟩ := Stream.skipWhileF_covers hb lo up (s.stop - s.pos + 1) s h ht
      exact ih hscan _ lines hc hpending
  | read start stop k ih => exact ih _ (hscan _) s lines h ht
  | accept term offset k ih =>
      have key := Stream.accept_covers hb h ht term offset
      cases heq : s.accept term offset with
      | error e =>
          rw [Scan.run, heq]
          trivial
      | ok s' =>
          rw [heq] at key
          rw [Scan.run, heq]
          exact ih hscan s' lines key.1 key.2
  | acceptTo term stop k ih => exact absurd hscan id
  | write line k ih => exact ih hscan s _ h ht

/-- A tokenizer that accepts no token without text: wherever it starts to read in a document and
accepts a term, the token ends behind its start. -/
def Tokenizer.NeverEmpty (t : Tokenizer) : Prop :=
  ∀ (v : StackView) (hi : Nat) (s s' : Stream) (lines : List String), s.Covers [⟨0, hi⟩] hi →
    s.token.start = some s.pos → s.token.value = none → ((t.scan v).run s lines).1 = .ok s' →
    s'.token.value.isSome = true → s.pos < s'.token.stop

end IncrementalLR
