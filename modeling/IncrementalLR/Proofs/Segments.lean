/-
**Segments that stacks share.**

All stacks of a parse put their finished records into one arena, where other stacks find them by the
ids of segments.  What holds the stacks together is an invariant over all of them and over all
segments: ids of parents are smaller, no segment is empty, and every base is the number of slots
that are found from the parent on.  An operation adds at most one segment and changes none, so what
a stack finds in the arena stays what it is, whatever the other stacks do.

All slots of a stack, those of its segments and its own ones together, are its full buffer.  A
cursor over the stack goes from segment to segment; it shows what a cursor over the flat full buffer
shows, so both give the same tree.

Main definitions:

* `Stack.bufferIn` — the full buffer, by way of the arena;
* `Arena.Holds`, `Stack.Held` — the pieces that a chain of segments holds;
* `Arena.Sound`, `Pool.Linked` — the invariant of segments, and of the stacks of a parse;
* `BufferCursor.Shows` — a cursor with certain records to pass.

Main results:

* `Stack.Extends.linked` — an extended chain lies in the extended arena;
* `Pool.applyAll_linked` — the invariant holds for all stacks and segments of a parse;
* `StackCursor.exists_start` — a cursor passes all records of a stack, across segments;
* `Pool.applyAll_shares` — **stacks share segments without changing each other's records**.
-/

import IncrementalLR.Proofs.Sharing
import IncrementalLR.Stack.Cursor

set_option relaxedAutoImplicit false
set_option autoImplicit false

namespace IncrementalLR

/-! ### Pieces in segments -/

namespace Arena

/-- The segments from `parent` on hold pieces of records, newest first, with `base` slots in all.
Ids get smaller from segment to segment. -/
inductive Holds (a : Arena) : Option Nat → Nat → List (List Record) → Prop
  | nil : Holds a none 0 []
  | cons {id : Nat} {segment : Segment} {piece : List Record} {pieces : List (List Record)} :
      a.get? id = some segment → (∀ older ∈ segment.parent, older < id) →
      segment.buffer = slotsOf piece → piece ≠ [] → Holds a segment.parent segment.base pieces →
      Holds a (some id) (segment.base + 4 * piece.length) (piece :: pieces)

/-- Every segment of an arena is the newest one of a chain. -/
def Sound (a : Arena) : Prop := ∀ id, id < a.size → ∃ base pieces, a.Holds (some id) base pieces

/-- The segments of an arena are in another one, with the same ids. -/
def KeptIn (a b : Arena) : Prop := ∀ id segment, a.get? id = some segment → b.get? id = some segment

theorem keptIn_push (a : Arena) (segment : Segment) : a.KeptIn (a.push segment) :=
  fun _ _ h => (get?_push_of_lt (lt_size h) segment).trans h

variable {a b : Arena} {parent : Option Nat} {base : Nat} {pieces : List (List Record)}

namespace Holds

/-- An arena with more segments holds the same. -/
theorem mono (h : a.Holds parent base pieces) (hkept : a.KeptIn b) :
    b.Holds parent base pieces := by
  induction h with
  | nil => exact .nil
  | cons hget holder hbuffer hpiece hrest ih =>
      exact .cons (hkept _ _ hget) holder hbuffer hpiece ih

theorem lt_size (h : a.Holds parent base pieces) : ∀ id ∈ parent, id < a.size := by
  cases h with
  | nil => exact fun _ hid => (Option.not_mem_none _ hid).elim
  | cons hget =>
      intro id hid
      exact Option.some.inj hid ▸ Arena.lt_size hget

theorem base_eq (h : a.Holds parent base pieces) : base = 4 * pieces.flatten.length := by
  induction h with
  | nil => rfl
  | cons hget holder hbuffer hpiece hrest ih =>
      rw [ih, List.flatten_cons, List.length_append]
      omega

theorem pieces_ne (h : a.Holds parent base pieces) : ∀ piece ∈ pieces, piece ≠ [] := by
  induction h with
  | nil => exact fun _ hpiece => (List.not_mem_nil hpiece).elim
  | cons hget holder hbuffer hpiece hrest ih => exact List.forall_mem_cons.2 ⟨hpiece, ih⟩

/-- As ids get smaller, the newest one bounds the number of segments. -/
theorem buffers_chainF (h : a.Holds parent base pieces) {fuel : Nat}
    (hfuel : ∀ id ∈ parent, id < fuel) :
    (a.chainF fuel parent).map (·.buffer) = pieces.map slotsOf := by
  induction h generalizing fuel with
  | nil => cases fuel <;> rfl
  | @cons id segment piece pieces hget holder hbuffer hpiece hrest ih =>
      have hid := hfuel id rfl
      obtain ⟨fuel, rfl⟩ := Nat.exists_eq_add_one_of_ne_zero (Nat.ne_zero_of_lt hid)
      have hsegment : (some id).bind a.get? = some segment := hget
      rw [chainF, hsegment]
      simp only [List.map_cons, hbuffer]
      rw [ih fun older holder' => Nat.lt_of_lt_of_le (holder older holder') (Nat.lt_succ_iff.1 hid)]

/-- **The slots that are found in an arena** are those of the pieces. -/
theorem slots_eq (h : a.Holds parent base pieces) : a.slots parent = slotsOf pieces.flatten := by
  have hchain := h.buffers_chainF h.lt_size
  rw [slots, chain, List.flatMap_def, List.map_reverse, hchain]
  clear h hchain
  induction pieces with
  | nil => rfl
  | cons piece rest ih =>
      rw [List.map_cons, List.reverse_cons, List.flatten_append, ih, List.flatten_singleton,
        List.flatten_cons, slotsOf_append]

theorem length_slots (h : a.Holds parent base pieces) : (a.slots parent).length = base := by
  rw [h.slots_eq, length_slotsOf, h.base_eq]

end Holds

/-- What a segment says of those before it. -/
theorem Sound.segment (h : a.Sound) {id : Nat} {segment : Segment}
    (hget : a.get? id = some segment) :
    segment.buffer ≠ [] ∧ segment.base = (a.slots segment.parent).length ∧
      ∀ older ∈ segment.parent, older < id := by
  obtain ⟨base, pieces, hheld⟩ := h id (Arena.lt_size hget)
  cases hheld with
  | cons hget' holder hbuffer hpiece hrest =>
      obtain rfl := Option.some.inj (hget.symm.trans hget')
      refine ⟨fun hnone => hpiece ?_, hrest.length_slots.symm, holder⟩
      have hlength := congrArg List.length (hbuffer.symm.trans hnone)
      rw [length_slotsOf, List.length_nil] at hlength
      exact List.length_eq_zero_iff.1 (by omega)

/-- A piece that goes in front of a chain. -/
theorem Holds.push (h : a.Holds parent base pieces) {piece : List Record} (hpiece : piece ≠ []) :
    (a.push ⟨slotsOf piece, base, parent⟩).Holds (some a.size) (base + 4 * piece.length)
      (piece :: pieces) :=
  .cons (get?_push_self a _) h.lt_size rfl hpiece (h.mono (keptIn_push a _))

theorem Sound.push (hsound : a.Sound) (h : a.Holds parent base pieces) {piece : List Record}
    (hpiece : piece ≠ []) : (a.push ⟨slotsOf piece, base, parent⟩).Sound := by
  intro id hid
  rw [size_push] at hid
  rcases Nat.lt_succ_iff_lt_or_eq.1 hid with hlt | rfl
  · obtain ⟨base', pieces', hheld⟩ := hsound id hlt
    exact ⟨base', pieces', hheld.mono (keptIn_push a _)⟩
  · exact ⟨_, _, h.push hpiece⟩

end Arena

/-! ### Stacks and segments -/

namespace Stack

/-- All slots of a stack: those of its segments, then its own ones. -/
def bufferIn (a : Arena) (s : Stack) : List Int := a.slots s.parent ++ slotsOf s.own.items

/-- The frozen pieces of a stack lie in its segments. -/
def Held (a : Arena) (s : Stack) : Prop := a.Holds s.parent s.base s.frozen

variable {a b : Arena} {s s' : Stack}

theorem Held.bufferIn_eq (h : s.Held a) : s.bufferIn a = s.fullBuffer := by
  rw [bufferIn, Arena.Holds.slots_eq h, fullBuffer, chain_eq]

theorem Held.chained (h : s.Held a) : s.Chained where
  base_eq := by rw [chain_eq, length_slotsOf, Arena.Holds.base_eq h]
  pieces := Arena.Holds.pieces_ne h

theorem SameChain.held (hsame : SameChain s s') (h : s.Held a) : s'.Held a := by
  rw [Held, hsame.parent, hsame.base, hsame.frozen]
  exact h

theorem Extends.keptIn (h : Extends s a s' b) : a.KeptIn b := by
  cases h with
  | same => exact fun _ _ hget => hget
  | piece => exact Arena.keptIn_push a _

/-- An extended chain begins with the slots from before. -/
theorem Extends.slots_prefix (h : Extends s a s' b) (hs : s.Held a) (hs' : s'.Held b) :
    a.slots s.parent <+: b.slots s'.parent := by
  rw [Arena.Holds.slots_eq hs, Arena.Holds.slots_eq hs']
  cases h with
  | same hsame => exact hsame.frozen ▸ List.prefix_rfl
  | piece hpiece hfrozen =>
      rw [hfrozen, List.flatten_cons, slotsOf_append]
      exact List.prefix_append ..

/-- **An extended chain lies in the extended arena.** -/
theorem Extends.linked (h : Extends s a s' b) (hsound : a.Sound) (hs : s.Held a) :
    b.Sound ∧ s'.Held b := by
  cases h with
  | same hsame => exact ⟨hsound, hsame.held hs⟩
  | piece hpiece hfrozen hbase hparent =>
      refine ⟨hsound.push hs hpiece, ?_⟩
      rw [Held, hparent, hbase, hfrozen]
      exact Arena.Holds.push hs hpiece

end Stack

/-! ### Cursors -/

/-- The places of records that are given newest first, each with the slots up to its end. -/
def placesOf : List Record → List (Nat × Record)
  | [] => []
  | r :: rest => (4 * (rest.length + 1), r) :: placesOf rest

theorem snd_placesOf (rs : List Record) : (placesOf rs).map (·.2) = rs := by
  induction rs with
  | nil => rfl
  | cons r rest ih => rw [placesOf, List.map_cons, ih]

namespace BufferCursor

variable {α : Type} [BufferCursor α]

/-- Each cursor of a kind that has certain records before it shows the newest one, and goes on to a
cursor that has the others before it. -/
structure Shows (before : α → List Record → Prop) : Prop where
  pos_eq : ∀ {c rs}, before c rs → pos c = 4 * rs.length
  step : ∀ {c r rest}, before c (r :: rest) →
    record? c = some r ∧ ∃ c', next? c = some c' ∧ before c' rest

variable {before : α → List Record → Prop} {c : α} {rs : List Record}

theorem Shows.walkF_eq (h : Shows before) (hc : before c rs) {fuel : Nat}
    (hfuel : rs.length ≤ fuel) : walkF fuel c = some (placesOf rs) := by
  induction rs generalizing c fuel with
  | nil =>
      have hpos : pos c = 0 := h.pos_eq hc
      cases fuel with
      | zero => rw [walkF, if_pos hpos, placesOf]
      | succ fuel => rw [walkF, if_pos hpos, placesOf]
  | cons r rest ih =>
      have hpos : pos c = 4 * (rest.length + 1) := h.pos_eq hc
      obtain ⟨hrecord, c', hnext, hc'⟩ := h.step hc
      obtain ⟨fuel, rfl⟩ := Nat.exists_eq_add_one_of_ne_zero (Nat.ne_zero_of_lt hfuel)
      rw [walkF, if_neg (by omega), hrecord, hnext]
      simp only [Option.bind_eq_bind, Option.bind_some, ih hc' (Nat.le_of_succ_le_succ hfuel)]
      rw [hpos, placesOf]
      rfl

/-- **A cursor passes the records before it.** -/
theorem Shows.walk_eq (h : Shows before) (hc : before c rs) : walk? c = some (placesOf rs) := by
  refine h.walkF_eq hc ?_
  rw [h.pos_eq hc]
  omega

/-- A builder gets the records before a cursor to read. -/
theorem Shows.build_eq (h : Shows before) (hc : before c rs) (d : BuildPlan) {r : Reader}
    (hr : r.Holds rs) : Tree.buildFromCursor? d c = some (Tree.buildFrom d r) := by
  rw [Tree.buildFromCursor?, reader?, h.walk_eq hc, Option.map_some, Option.map_some,
    snd_placesOf]
  refine congrArg some (Tree.buildFrom_of_alike d ⟨rs, ?_, hr⟩)
  exact ⟨List.append_nil rs, h.pos_eq hc, fun _ => rfl, fun _ hp => (List.not_mem_nil hp).elim⟩

end BufferCursor

/-- The record whose slots come behind others. -/
theorem recordAt?_append (older later : List Int) (r : Record) :
    recordAt? (older ++ (r.slots ++ later)) (older.length + 4) = some r := by
  have hslot : ∀ k, (older ++ (r.slots ++ later))[older.length + k]? = (r.slots ++ later)[k]? := by
    intro k
    rw [List.getElem?_append_right (Nat.le_add_right _ k), Nat.add_sub_cancel_left]
  have hindex : ∀ k, k ≤ 4 → older.length + 4 - k = older.length + (4 - k) :=
    fun k hk => Nat.add_sub_assoc hk older.length
  rw [recordAt?, if_neg (by omega), hindex 4 (by omega), hindex 3 (by omega), hindex 2 (by omega),
    hindex 1 (by omega), hslot, hslot, hslot, hslot]
  rfl

theorem slotsOf_cons (r : Record) (rest : List Record) :
    slotsOf (r :: rest) = slotsOf rest ++ r.slots := by
  simp [slotsOf]

/-- The newest one of some records, behind which others may have been. -/
theorem recordAt?_slotsOf (r : Record) (rest : List Record) (later : List Int) :
    recordAt? (slotsOf (r :: rest) ++ later) (4 * (rest.length + 1)) = some r := by
  have hindex : 4 * (rest.length + 1) = (slotsOf rest).length + 4 := by
    rw [length_slotsOf]
    omega
  rw [hindex, slotsOf_cons, List.append_assoc, recordAt?_append]

namespace FlatCursor

/-- Some records end where the cursor is. -/
def Before (c : FlatCursor) (rs : List Record) : Prop :=
  ∃ later, c.buffer = slotsOf rs ++ later ∧ c.index = 4 * rs.length

theorem shows_before : BufferCursor.Shows Before where
  pos_eq := fun ⟨_, _, hindex⟩ => hindex
  step := by
    rintro ⟨buffer, index⟩ r rest ⟨later, rfl, rfl⟩
    refine ⟨recordAt?_slotsOf r rest later, ⟨slotsOf (r :: rest) ++ later, 4 * rest.length⟩, ?_,
      r.slots ++ later, ?_, rfl⟩
    · change next? _ = _
      rw [next?, if_neg]
      · rfl
      · exact Nat.not_lt.2 (Nat.le_add_left 4 (4 * rest.length))
    · rw [slotsOf_cons, List.append_assoc]

theorem before_start (rs : List Record) : (start (slotsOf rs)).Before rs :=
  ⟨[], (List.append_nil _).symm, length_slotsOf rs⟩

end FlatCursor

namespace StackCursor

/-- Some records end where the cursor is, those of the current piece and those of its segments.  The
current piece is not used up unless there are no segments. -/
structure Before (c : StackCursor) (rs : List Record) : Prop where
  pos_eq : c.pos = 4 * rs.length
  piece : ∃ current pieces later, rs = current ++ List.flatten pieces ∧
    c.buffer = slotsOf current ++ later ∧ c.index = 4 * current.length ∧
    c.arena.Holds c.parent c.base pieces ∧ (current = [] → pieces = [])

theorem next?_of_le {c : StackCursor} (hindex : 4 ≤ c.index) (hpos : 4 ≤ c.pos) :
    c.next? = refill? { c with index := c.index - 4, pos := c.pos - 4 } := by
  have hwithin : (decide (c.index < 4) || decide (c.pos < 4)) = false := by
    rw [Bool.or_eq_false_iff]
    exact ⟨decide_eq_false (Nat.not_lt.2 hindex), decide_eq_false (Nat.not_lt.2 hpos)⟩
  rw [next?, hwithin]
  rfl

/-- Going on in the segment before. -/
theorem before_refill {c : StackCursor} {current : List Record} {pieces : List (List Record)}
    {later : List Int} (hpos : c.pos = 4 * (current ++ pieces.flatten).length)
    (hbuffer : c.buffer = slotsOf current ++ later) (hindex : c.index = 4 * current.length)
    (hheld : c.arena.Holds c.parent c.base pieces) :
    ∃ c', c.refill? = some c' ∧ c'.Before (current ++ pieces.flatten) := by
  obtain ⟨arena, buffer, base, parent, pos, index⟩ := c
  dsimp only at hpos hbuffer hindex hheld
  cases current with
  | cons r rest =>
      have hleft : ¬ index = 0 := by
        rw [hindex, List.length_cons]
        omega
      exact ⟨_, if_neg hleft, hpos, r :: rest, pieces, later, rfl, hbuffer, hindex, hheld,
        fun h => absurd h (List.cons_ne_nil r rest)⟩
  | nil =>
      have hused : index = 0 := hindex
      rw [refill?, if_pos hused, enter?]
      cases hheld with
      | nil => exact ⟨_, rfl, hpos, [], [], later, rfl, hbuffer, hindex, .nil, fun _ => rfl⟩
      | @cons id segment piece pieces hget holder hsegment hpiece hrest =>
          have hbelow : ¬ segment.base + 4 * piece.length < segment.base := by omega
          have hsub : segment.base + 4 * piece.length - segment.base = 4 * piece.length := by omega
          refine ⟨⟨arena, segment.buffer, segment.base, segment.parent, pos, 4 * piece.length⟩, ?_,
            hpos, piece, pieces, [], rfl, ?_, rfl, hrest, fun h => absurd h hpiece⟩
          · simp only [hget, Option.bind_eq_bind, Option.bind_some, if_neg hbelow, hsub]
            rfl
          · rw [hsegment, List.append_nil]

theorem shows_before : BufferCursor.Shows Before where
  pos_eq := fun h => h.pos_eq
  step := by
    rintro ⟨arena, buffer, base, parent, pos, index⟩ r rest
      ⟨hpos, current, pieces, later, hrs, hbuffer, hindex, hheld, hopened⟩
    dsimp only at hpos hbuffer hindex hheld
    cases current with
    | nil =>
        rw [hopened rfl] at hrs
        cases hrs
    | cons c current =>
        obtain ⟨rfl, hrest⟩ := List.cons.inj hrs
        obtain rfl : rest = current ++ pieces.flatten := hrest
        have hleft : pos - 4 = 4 * (current ++ pieces.flatten).length ∧ 4 ≤ pos := by
          rw [hpos, List.length_cons]
          omega
        have hbehind : index - 4 = 4 * current.length ∧ 4 ≤ index := by
          rw [hindex, List.length_cons]
          omega
        have hlater : buffer = slotsOf current ++ (r.slots ++ later) := by
          rw [hbuffer, slotsOf_cons, List.append_assoc]
        obtain ⟨c', hrefill, hbefore⟩ := before_refill
          (c := ⟨arena, buffer, base, parent, pos - 4, index - 4⟩) hleft.1 hlater hbehind.1 hheld
        refine ⟨?_, c', (next?_of_le hbehind.2 hleft.2).trans hrefill, hbefore⟩
        change recordAt? buffer index = some r
        rw [hbuffer, hindex]
        exact recordAt?_slotsOf r current later

/-- **A cursor begins before all records of a stack.** -/
theorem exists_start {a : Arena} {s : Stack} (h : s.Held a) :
    ∃ c, start a s = some c ∧ c.Before s.records := by
  refine before_refill ?_ (List.append_nil _).symm ?_ h
  · exact h.chained.bufferLength_eq
  · exact congrArg (4 * ·) s.own.size_eq

end StackCursor

theorem Reader.shows_holds : BufferCursor.Shows Reader.Holds where
  pos_eq := fun h => h.pos_eq
  step := by
    intro r c rest h
    have hnext := h.next.2
    obtain ⟨pos, current, older⟩ := r
    cases current with
    | nil =>
        have hnone := h.records_eq
        rw [Reader.records, h.opened rfl] at hnone
        cases hnone
    | cons d current =>
        obtain ⟨rfl, -⟩ := List.cons.inj h.records_eq
        exact ⟨rfl, _, rfl, hnext⟩

namespace Stack

/-- The newest record of a stack, which may be the last one of a segment. -/
def previousIn? (a : Arena) (s : Stack) : Option Record :=
  match s.own.items with
  | r :: _ => some r
  | [] => (s.parent.bind a.get?).bind fun segment =>
      recordAt? segment.buffer segment.buffer.length

/-- What one finds in an arena is all that a stack has. -/
structure FoundIn (a : Arena) (s : Stack) : Prop where
  /-- The base is the number of slots in segments. -/
  base_eq : s.base = (a.slots s.parent).length
  /-- The segments from the parent on hold the frozen pieces. -/
  frozen_eq : (a.chain s.parent).map (·.buffer) = s.frozen.map slotsOf
  /-- The record that an error may be merged with. -/
  previous_eq : s.previousRecord? = s.previousIn? a
  /-- A cursor over the stack shows what one over the flat full buffer shows, and both give the tree
  that a reader of the stack gives. -/
  cursor : ∃ c views, StackCursor.start a s = some c ∧
    BufferCursor.views? c = some views ∧
    BufferCursor.views? (FlatCursor.start (s.bufferIn a)) = some views ∧
    BufferCursor.views? s.reader = some views ∧
    ∀ d, Tree.buildFromCursor? d c = some (Tree.buildFrom d s.reader) ∧
      Tree.buildFromCursor? d (FlatCursor.start (s.bufferIn a)) = some (Tree.buildFrom d s.reader)
  /-- The tree is the one of the flat full buffer. -/
  build_eq : ∀ d, Tree.buildFrom d s.reader = Tree.buildFrom d (.ofSlots (s.bufferIn a))

variable {a : Arena} {s : Stack}

theorem Held.previous_eq (h : s.Held a) : s.previousRecord? = s.previousIn? a := by
  rw [previousRecord?, previousIn?]
  cases s.own.items with
  | cons r rest => rfl
  | nil =>
      rw [Held] at h
      revert h
      generalize s.parent = parent
      generalize s.base = base
      generalize s.frozen = frozen
      intro h
      cases h with
      | nil => rfl
      | @cons id segment piece pieces hget holder hbuffer hpiece hrest =>
          obtain ⟨r, rest, rfl⟩ := List.exists_cons_of_ne_nil hpiece
          have hlast := recordAt?_slotsOf r rest []
          rw [List.append_nil] at hlast
          simp only [Option.bind_some, hget, hbuffer, length_slotsOf, List.length_cons, hlast]
          rfl

/-- **A stack is read like its full buffer.** -/
theorem Held.found (h : s.Held a) : s.FoundIn a where
  base_eq := (Arena.Holds.length_slots h).symm
  frozen_eq := Arena.Holds.buffers_chainF h (Arena.Holds.lt_size h)
  previous_eq := h.previous_eq
  cursor := by
    have hholds : s.reader.Holds s.records :=
      .of_refill rfl h.chained.bufferLength_eq h.chained.pieces
    have hflat := FlatCursor.before_start s.records
    rw [← fullBuffer_eq, ← h.bufferIn_eq] at hflat
    obtain ⟨c, hstart, hbefore⟩ := StackCursor.exists_start h
    refine ⟨c, (placesOf s.records).map fun place => place.2.viewAt place.1, hstart, ?_, ?_, ?_,
      fun d => ⟨?_, ?_⟩⟩
    · rw [BufferCursor.views?, StackCursor.shows_before.walk_eq hbefore, Option.map_some]
    · rw [BufferCursor.views?, FlatCursor.shows_before.walk_eq hflat, Option.map_some]
    · rw [BufferCursor.views?, Reader.shows_holds.walk_eq hholds, Option.map_some]
    · exact StackCursor.shows_before.build_eq hbefore d hholds
    · exact FlatCursor.shows_before.build_eq hflat d hholds
  build_eq := fun d => h.bufferIn_eq ▸ Tree.buildFrom_of_alike d h.chained.reader_alike

end Stack

namespace Pool

/-- The segments go on to older ones, and the pieces of every stack lie in them. -/
structure Linked (pool : Pool) : Prop where
  arena : pool.env.arena.Sound
  members : ∀ s ∈ pool.members, s.Held pool.env.arena

/-- **What an operation keeps**, of all stacks and of all segments. -/
theorem Linked.apply {p : Parser} {pool : Pool} (h : pool.Linked) (i : Nat)
    (op : Stack.Operation) : (pool.apply p i op).Linked := by
  rw [Pool.apply]
  cases hs : pool.members[i]? with
  | none => exact h
  | some s =>
      have hgrows := op.run_grows p s pool.env
      have hkept := hgrows.extends_self.keptIn
      obtain ⟨harena, hself⟩ :=
        hgrows.extends_self.linked h.arena (h.members s (List.mem_of_getElem? hs))
      refine ⟨harena, fun x hx => ?_⟩
      rcases List.mem_append.1 hx with hx | hx
      · rcases List.mem_or_eq_of_mem_set hx with hx | rfl
        · exact Arena.Holds.mono (h.members x hx) hkept
        · exact hself
      · exact (hgrows.new x hx).held hself

/-- **The invariant holds for all stacks and segments of a parse.** -/
theorem applyAll_linked {p : Parser} (ops : List (Nat × Stack.Operation)) {pool : Pool}
    (h : pool.Linked) : (pool.applyAll p ops).Linked := by
  induction ops generalizing pool with
  | nil => exact h
  | cons op rest ih => exact ih (h.apply op.1 op.2)

theorem start_linked (p : Parser) (pos : Nat) (env : Env) : (start p pos env).Linked where
  arena := fun id hid => (Nat.not_lt_zero id hid).elim
  members := by
    intro s hs
    obtain rfl := List.mem_singleton.1 hs
    exact .nil

/-- **Stacks share segments without changing each other's records.**  After any operations on the
stacks of a parse, every segment holds records, its base counts the slots in the segments before it,
and these are older; and what one finds of a stack in the arena is all that it has.  A further
operation on one of the stacks keeps all segments.  Every other stack stays as it is, with the full
buffer that it had.  The stack itself gets at most more slots in segments, and those that it splits
off begin with the same segments; a split leaves two equal stacks with the full buffer that the one
had. -/
theorem applyAll_shares (p : Parser) (pos : Nat) (env : Env) (ops : List (Nat × Stack.Operation))
    (pool : Pool) (hpool : (start p pos env).applyAll p ops = pool) :
    (∀ id segment, pool.env.arena.get? id = some segment → segment.buffer ≠ [] ∧
      segment.base = (pool.env.arena.slots segment.parent).length ∧
      ∀ older ∈ segment.parent, older < id) ∧
    (∀ s ∈ pool.members, s.FoundIn pool.env.arena) ∧
    ∀ i s op after, pool.members[i]? = some s → pool.apply p i op = after →
      (∀ id segment, pool.env.arena.get? id = some segment →
        after.env.arena.get? id = some segment) ∧
      (∀ j x, j ≠ i → pool.members[j]? = some x → after.members[j]? = some x ∧
        x.bufferIn after.env.arena = x.bufferIn pool.env.arena) ∧
      ∃ s', after.members[i]? = some s' ∧
        pool.env.arena.slots s.parent <+: after.env.arena.slots s'.parent ∧
        (∀ x ∈ after.members.drop pool.members.length, x.parent = s'.parent ∧ x.base = s'.base) ∧
        (op = .split → after.members.drop pool.members.length = [s'] ∧
          s'.bufferIn after.env.arena = s.bufferIn pool.env.arena) := by
  have hlinked : pool.Linked := hpool ▸ applyAll_linked ops (start_linked p pos env)
  refine ⟨fun id segment hget => hlinked.arena.segment hget,
    fun s hs => (hlinked.members s hs).found, fun i s op after hs hafter => ?_⟩
  have hgrows := op.run_grows p s pool.env
  have hkept := hgrows.extends_self.keptIn
  have hheld := hlinked.members s (List.mem_of_getElem? hs)
  obtain ⟨-, hself⟩ := hgrows.extends_self.linked hlinked.arena hheld
  obtain ⟨hi, -⟩ := List.getElem?_eq_some_iff.1 hs
  have hmembers := apply_eq (p := p) hs op
  have harena : (pool.apply p i op).env = (op.run p s pool.env).2.2 := by
    rw [apply, hs]
  subst hafter
  rw [hmembers, harena, List.drop_left' (by simp)]
  refine ⟨hkept, fun j x hj hx => ⟨?_, ?_⟩, (op.run p s pool.env).1, ?_, ?_, ?_, ?_⟩
  · obtain ⟨hlt, -⟩ := List.getElem?_eq_some_iff.1 hx
    rw [List.getElem?_append_left (by simpa using hlt), List.getElem?_set_ne (Ne.symm hj)]
    exact hx
  · have hother := hlinked.members x (List.mem_of_getElem? hx)
    have hlater : x.Held (op.run p s pool.env).2.2.arena := Arena.Holds.mono hother hkept
    rw [hlater.bufferIn_eq, hother.bufferIn_eq]
  · rw [List.getElem?_append_left (by simpa using hi)]
    simp [hi]
  · exact hgrows.extends_self.slots_prefix hheld hself
  · exact fun x hx => ⟨(hgrows.new x hx).parent, (hgrows.new x hx).base⟩
  · rintro rfl
    refine ⟨rfl, ?_⟩
    rw [hself.bufferIn_eq, hheld.bufferIn_eq]
    exact s.fullBuffer_freeze _

/-- Two halves of a stack over the text `a  `: the first one has gone on, was split again and has
gone on, while the second one has an error. -/
def halves : Pool :=
  (start Parse.pairParser 0
    { stream := .start { bytes := #[97, 32, 32] } [⟨0, 3⟩], start := 0, limit := 0 }).applyAll
    Parse.pairParser
    [(0, .shift (Action.shift 1).code 3 0 1), (0, .split), (0, .shift (Action.shift 1).code 3 1 2),
      (0, .split), (0, .shift Action.skip.code 3 2 3), (1, .store errorTerm 1 1 4 true)]

/-- The first half finds its records in two segments.  It stays what it is, and finds the same, when
the second one is split and puts another segment behind the first one. -/
theorem applyAll_shares_halves :
    ∃ s, halves.members[0]? = some s ∧ s.parent = some 1 ∧ s.base = 8 ∧
      halves.env.arena.get? 1 = some ⟨[3, 1, 2, 4], 4, some 0⟩ ∧
      s.bufferIn halves.env.arena = [3, 0, 1, 4, 3, 1, 2, 4, 3, 2, 3, 4] ∧
      s.FoundIn halves.env.arena ∧
      (halves.apply Parse.pairParser 1 .split).env.arena.get? 2 =
        some ⟨[0, 1, 1, 4], 4, some 0⟩ ∧
      (halves.apply Parse.pairParser 1 .split).members[0]? = some s ∧
      s.bufferIn (halves.apply Parse.pairParser 1 .split).env.arena =
        s.bufferIn halves.env.arena := by
  have hfirst : (halves.members[0]?.map fun s =>
      (s.parent, s.base, s.bufferIn halves.env.arena)) =
        some (some 1, 8, [3, 0, 1, 4, 3, 1, 2, 4, 3, 2, 3, 4]) := by decide +kernel
  have hsecond : (halves.members[1]?.map (·.parent)) = some (some 0) := by decide +kernel
  have hsegment : halves.env.arena.get? 1 = some ⟨[3, 1, 2, 4], 4, some 0⟩ := by decide +kernel
  have hnew : (halves.apply Parse.pairParser 1 .split).env.arena.get? 2 =
      some ⟨[0, 1, 1, 4], 4, some 0⟩ := by decide +kernel
  obtain ⟨s, hs, hfound⟩ := Option.map_eq_some_iff.1 hfirst
  obtain ⟨x, hx, -⟩ := Option.map_eq_some_iff.1 hsecond
  obtain ⟨hparent, hbase, hbuffer⟩ : s.parent = some 1 ∧ s.base = 8 ∧
      s.bufferIn halves.env.arena = [3, 0, 1, 4, 3, 1, 2, 4, 3, 2, 3, 4] := by
    simpa using hfound
  obtain ⟨-, hread, hframe⟩ := applyAll_shares Parse.pairParser 0 _ _ halves rfl
  obtain ⟨hsame, hkeeps⟩ := (hframe 1 x .split _ hx rfl).2.1 0 s (by decide) hs
  exact ⟨s, hs, hparent, hbase, hsegment, hbuffer, hread s (List.mem_of_getElem? hs), hnew, hsame,
    hkeeps⟩

end Pool

end IncrementalLR
