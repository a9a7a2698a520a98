/-
**Stacks as slots.**

A stack is kept in flat sequences of numbers: three slots for each frame, and four for each record,
in pieces that are shared and in one of its own.  Whoever indexes them relies on some facts at once:
that the lengths come out even, that the positions noted in the frames are those of whole records
and never fall from the bottom to the top, and that no node counts more slots than there are up to
its end.

A size is at most what is there because it counts records that are: all since a symbol began, or a
marker besides the node itself.  A node that sinks below others loses as many slots as it moves
down, and those that it moves up have more room than before.

Main definitions:

* `Stack.frameSlots` — the frames as slots;
* `Stack.Sound` — what holds of the slots of a stack;
* `Record.FitsAbove`, `AllFit` — sizes that are not larger than what is there;
* `Stack.Regular` — the same for frames and records;
* `Stack.Operation.HasSize`, `Pool.HaveSizes` — nodes that are stored with a size that fits.

Main results:

* `AllFit.insert` — a record that goes in below others;
* `Stack.Regular.addNode`, `Stack.Regular.reduce` — what storing and reducing keep;
* `Stack.Regular.move`, `Stack.Regular.run` — what a move of a parse and any operation keep;
* `Stack.Regular.sound` — **frames and records, as slots**;
* `Pool.haveSizes_of_four` — the sizes that a parse stores as such fit;
* `Pool.applyAll_sound` — **all stacks that operations lead to are sound**;
* `Parse.Used.sound` — so are all that a parse follows.
-/

import IncrementalLR.Proofs.Leaving
import IncrementalLR.Proofs.Sharing
import IncrementalLR.Proofs.Simulations
import IncrementalLR.Proofs.Walks

set_option relaxedAutoImplicit false
set_option autoImplicit false

namespace IncrementalLR

/-! ### Slots -/

/-- The slots of a frame. -/
def Frame.slots (f : Frame) : List Nat := [f.state, f.start, f.bufferPos]

theorem Frame.length_slots (f : Frame) : f.slots.length = 3 := rfl

theorem Record.length_slots (r : Record) : r.slots.length = 4 := rfl

namespace Stack

/-- The frames as slots, from the bottom to the top. -/
def frameSlots (s : Stack) : List Nat := s.frames.items.reverse.flatMap Frame.slots

/-- There are as many as the stack is deep. -/
theorem length_frameSlots (s : Stack) : s.frameSlots.length = s.depth := by
  rw [depth, s.frames.size_eq]
  simp [frameSlots, Frame.length_slots, List.length_flatMap, List.map_const', Nat.mul_comm]

/-- What holds of the slots of a stack.  That frames take threes of slots, and records fours, holds
of every stack, as frames and records are only ever added and removed as a whole; what operations
have to keep are the positions in the frames, the length of the buffer and the sizes. -/
structure Sound (s : Stack) : Prop where
  frames_dvd : 3 ∣ s.frameSlots.length
  own_dvd : 4 ∣ (slotsOf s.own.items).length
  pieces_dvd : ∀ piece ∈ s.frozen, 4 ∣ (slotsOf piece).length
  length_eq : s.bufferLength = s.fullBuffer.length
  /-- Positions in frames are those of whole records. -/
  saved : ∀ i b, s.frameSlots[3 * i + 2]? = some b → 4 ∣ b ∧ b ≤ s.fullBuffer.length
  /-- They do not fall from the bottom to the top. -/
  rising : ∀ i j a b, i ≤ j → s.frameSlots[3 * i + 2]? = some a →
    s.frameSlots[3 * j + 2]? = some b → a ≤ b
  /-- Sizes of nodes are whole records, at most those from the first to the node itself. -/
  sizes : ∀ i n, s.fullBuffer[4 * i + 3]? = some n → 0 ≤ n →
    0 < n ∧ 4 ∣ n ∧ n ≤ ((4 * i + 4 : Nat) : Int)

end Stack

/-- Items of `k` slots each, as slots. -/
theorem getElem?_flatMap_slots {α β : Type} {f : α → List β} {k c : Nat}
    (hf : ∀ x, (f x).length = k) (hc : c < k) (l : List α) (i : Nat) :
    (l.flatMap f)[k * i + c]? = l[i]?.bind fun x => (f x)[c]? := by
  induction l generalizing i with
  | nil => simp
  | cons x rest ih =>
      cases i with
      | zero =>
          rw [List.flatMap_cons, Nat.mul_zero, Nat.zero_add,
            List.getElem?_append_left (by rw [hf]; exact hc)]
          rfl
      | succ i =>
          have hindex : k * (i + 1) + c = (f x).length + (k * i + c) := by
            rw [hf, Nat.mul_succ]
            omega
          rw [List.flatMap_cons, hindex, List.getElem?_append_right (Nat.le_add_right _ _),
            Nat.add_sub_cancel_left, ih]
          rfl

/-! ### Sizes -/

/-- The size of a node counts whole records: itself, and at most those below. -/
def Record.FitsAbove (below : Nat) (r : Record) : Prop :=
  0 ≤ r.size → 4 ≤ r.size ∧ 4 ∣ r.size ∧ r.size ≤ 4 * (below + 1)

/-- Records, newest first, whose sizes fit. -/
def AllFit : List Record → Prop
  | [] => True
  | r :: rest => r.FitsAbove rest.length ∧ AllFit rest

theorem Record.FitsAbove.mono {below more : Nat} {r : Record} (h : r.FitsAbove below)
    (hle : below ≤ more) : r.FitsAbove more := by
  intro hnode
  obtain ⟨hfour, hdvd, hsize⟩ := h hnode
  exact ⟨hfour, hdvd, by omega⟩

/-- Records that are no nodes fit anywhere. -/
theorem Record.fitsAbove_of_neg {r : Record} (h : r.size < 0) (below : Nat) :
    r.FitsAbove below := fun hnode => absurd hnode (Int.not_le.2 h)

/-- So do nodes without children. -/
theorem Record.fitsAbove_of_single {r : Record} (h : r.size = 4) (below : Nat) :
    r.FitsAbove below := fun _ => by omega

namespace AllFit

variable {r r' : Record} {tail rest rs : List Record}

/-- **A record that goes in below others** has to fit where it is; those above get more room. -/
theorem insert (h : AllFit (tail ++ rest)) (hr : r.FitsAbove rest.length) :
    AllFit (tail ++ r :: rest) := by
  induction tail with
  | nil => exact ⟨hr, h⟩
  | cons c tail ih =>
      have hle : (tail ++ rest).length ≤ (tail ++ r :: rest).length := by simp
      exact ⟨h.1.mono hle, ih h.2⟩

/-- Sizes are all that matters. -/
theorem replace (h : AllFit (r :: rest)) (hsize : r'.size = r.size) : AllFit (r' :: rest) := by
  refine ⟨?_, h.2⟩
  rw [Record.FitsAbove, hsize]
  exact h.1

/-- The record with so many others below it. -/
theorem getElem?_reverse (h : AllFit rs) {i : Nat} (hr : rs.reverse[i]? = some r) :
    r.FitsAbove i := by
  induction rs with
  | nil => simp at hr
  | cons c rest ih =>
      rw [List.reverse_cons] at hr
      rcases Nat.lt_or_ge i rest.length with hlt | hge
      · rw [List.getElem?_append_left (by simpa using hlt)] at hr
        exact ih h.2 hr
      · rw [List.getElem?_append_right (by simpa using hge), List.length_reverse,
          List.getElem?_singleton] at hr
        split at hr
        · obtain rfl := Option.some.inj hr
          exact h.1.mono hge
        · cases hr

/-- A node goes on top, or sinks and loses as many slots as it moves down. -/
theorem sinkInto (h : AllFit (rs ++ rest)) (hr : r.FitsAbove (rs ++ rest).length)
    (hnode : 0 ≤ r.size) : AllFit (Stack.sinkInto r rs ++ rest) := by
  unfold Stack.sinkInto
  simp only
  split
  · generalize htail : rs.takeWhile (fun c => decide (r.stop < c.stop)) = tail
    generalize hbelow : rs.dropWhile (fun c => decide (r.stop < c.stop)) = below
    have hsplit : tail ++ below = rs := by
      rw [← htail, ← hbelow, List.takeWhile_append_dropWhile]
    rw [List.append_assoc, List.cons_append]
    refine insert ?_ fun _ => ?_
    · rw [← List.append_assoc, hsplit]
      exact h
    · obtain ⟨hfour, hdvd, hle⟩ := hr hnode
      rw [← hsplit] at hle
      simp only [List.length_append] at hle ⊢
      rcases Int.le_total 4 (r.size - 4 * tail.length) with hbig | hsmall
      · rw [Int.max_eq_right hbig]
        exact ⟨hbig, by omega, by omega⟩
      · rw [Int.max_eq_left hsmall]
        exact ⟨by omega, by omega, by omega⟩
  · exact ⟨hr, h⟩

end AllFit

namespace Stack

/-! ### Stacks with a record -/

/-- A marker is there in any case. -/
theorem records_mark_ne_nil (s : Stack) (id size : Int) : (s.mark id size).records ≠ [] := by
  unfold mark
  split
  · rename_i hknown
    obtain ⟨r, hr, -⟩ := (Option.any_eq_true _ _).1 hknown
    intro hnil
    rw [Pile.top?, (List.append_eq_nil_iff.1 hnil).1] at hr
    cases hr
  · exact List.cons_ne_nil _ _

/-- Where an error is, there is a record. -/
theorem records_ne_nil_of_errorBefore {s : Stack} {e : Record}
    (he : s.errorBefore? = some e) : s.records ≠ [] := by
  intro hnil
  obtain ⟨hown, hfrozen⟩ := List.append_eq_nil_iff.1 hnil
  unfold errorBefore? at he
  split at he
  · obtain ⟨hprevious, -⟩ := Option.filter_eq_some_iff.1 he
    unfold previousRecord? at hprevious
    rw [hown] at hprevious
    obtain ⟨piece, hpiece, hr⟩ := Option.bind_eq_some_iff.1 hprevious
    have hempty := List.flatten_eq_nil_iff.1 hfrozen piece (List.mem_of_mem_head? hpiece)
    rw [hempty] at hr
    cases hr
  · cases he

theorem records_appendNode_ne_nil (s : Stack) (r : Record) (sink : Bool) :
    (s.appendNode r sink).records ≠ [] := by
  intro hnil
  have hitems := (List.append_eq_nil_iff.1 hnil).1
  unfold appendNode at hitems
  split at hitems
  · cases hitems
  · have hlength := length_sinkInto r s.own.items
    rw [show sinkInto r s.own.items = [] from hitems] at hlength
    cases hlength

/-- After a store there is a record, even if nothing was stored. -/
theorem records_addNode_ne_nil (s : Stack) (term start stop size : Nat) (sink : Bool) :
    (s.addNode term start stop size sink).records ≠ [] := by
  unfold addNode
  simp only
  cases hprevious : (if term = errorTerm then s.errorBefore? else none) with
  | none => exact records_appendNode_ne_nil _ _ _
  | some e =>
      have hne : s.records ≠ [] := by
        split at hprevious
        · exact records_ne_nil_of_errorBefore hprevious
        · cases hprevious
      simp only
      split
      · exact hne
      · split
        · unfold extendLast
          split
          · exact List.cons_ne_nil _ _
          · exact hne
        · exact records_appendNode_ne_nil _ _ _

/-! ### Frames and records -/

/-- What is known of the frames and records of a stack.  When the look-ahead was raised, there has
been a record since. -/
structure Regular (s : Stack) : Prop where
  chained : s.Chained
  noted : 0 < s.lookAhead → s.records ≠ []
  fit : AllFit s.records
  saved : ∀ f ∈ s.frames.items, 4 ∣ f.bufferPos ∧ f.bufferPos ≤ s.bufferLength
  falling : s.frames.items.Pairwise fun f older => older.bufferPos ≤ f.bufferPos

/-- A size of whole records, at most those that there are and one more. -/
structure SizeFits (s : Stack) (size : Nat) : Prop where
  pos : 0 < size
  dvd : 4 ∣ size
  le : size ≤ s.bufferLength + 4

instance (s : Stack) (size : Nat) : Decidable (s.SizeFits size) :=
  decidable_of_iff (0 < size ∧ 4 ∣ size ∧ size ≤ s.bufferLength + 4)
    ⟨fun h => ⟨h.1, h.2.1, h.2.2⟩, fun h => ⟨h.pos, h.dvd, h.le⟩⟩

theorem sizeFits_four (s : Stack) : s.SizeFits 4 :=
  ⟨by decide, Nat.dvd_refl 4, Nat.le_add_left 4 _⟩

namespace Regular

variable {s s' : Stack} {p : Parser}

/-- Nothing else of a stack matters. -/
theorem congr (h : s.Regular) (hframes : s'.frames = s.frames) (hown : s'.own = s.own)
    (hbase : s'.base = s.base) (hfrozen : s'.frozen = s.frozen)
    (hlook : s'.lookAhead = s.lookAhead) : s'.Regular := by
  have hrecords : s'.records = s.records := by rw [records, records, hown, hfrozen]
  have hlength : s'.bufferLength = s.bufferLength := by
    rw [bufferLength, bufferLength, hown, hbase]
  refine ⟨h.chained.congr hbase hfrozen, ?_, ?_, ?_, ?_⟩
  · rw [hlook, hrecords]
    exact h.noted
  · rw [hrecords]
    exact h.fit
  · rw [hframes, hlength]
    exact h.saved
  · rw [hframes]
    exact h.falling

/-- Other records of its own, no fewer than before. -/
theorem withOwn (h : s.Regular) {own : Pile Record} (hle : s.own.size ≤ own.size)
    (hfit : AllFit (own.items ++ s.frozen.flatten)) : Regular { s with own } := by
  have hlength : s.bufferLength ≤ Stack.bufferLength { s with own } := by
    simp only [bufferLength]
    omega
  have hsame : SameChain s { s with own } := ⟨rfl, rfl, rfl⟩
  refine ⟨hsame.chained h.chained, fun hlook hnil => ?_, hfit, fun f hf => ?_, h.falling⟩
  · obtain ⟨hitems, hfrozen⟩ := List.append_eq_nil_iff.1 hnil
    have hown : s.own.items = [] := by
      have hsize := own.size_eq
      have hsize' := s.own.size_eq
      rw [hitems] at hsize
      exact List.eq_nil_of_length_eq_zero (by simp only [List.length_nil] at hsize; omega)
    exact h.noted hlook (List.append_eq_nil_iff.2 ⟨hown, hfrozen⟩)
  · obtain ⟨hdvd, hpos⟩ := h.saved f hf
    exact ⟨hdvd, by omega⟩

/-! ### Records -/

theorem pushRecord (h : s.Regular) {r : Record} (hr : r.FitsAbove s.records.length) :
    (s.pushRecord r).Regular :=
  h.withOwn (Nat.le_succ _) ⟨hr, h.fit⟩

theorem mark (h : s.Regular) (id : Int) {size : Int} (hsize : size < 0) :
    (s.mark id size).Regular := by
  unfold Stack.mark
  split
  · exact h
  · exact h.pushRecord (Record.fitsAbove_of_neg hsize _)

theorem markContext (h : s.Regular) : s.markContext.Regular := by
  unfold Stack.markContext
  split
  · exact h.mark _ (by decide)
  · exact h

theorem markLookAhead (h : s.Regular) : s.markLookAhead.Regular := h.mark _ (by decide)

theorem raiseLookAhead (h : s.Regular) (pos : Nat) : (s.raiseLookAhead pos).Regular := by
  unfold Stack.raiseLookAhead
  split
  · have hmarked := h.markLookAhead
    have hsame : SameChain s.markLookAhead { s.markLookAhead with lookAhead := pos } :=
      ⟨rfl, rfl, rfl⟩
    exact ⟨hsame.chained hmarked.chained, fun _ => records_mark_ne_nil s _ _, hmarked.fit,
      hmarked.saved, hmarked.falling⟩
  · exact h

theorem changeContext (h : s.Regular) (change : ContextChange) (start : Nat) (env : Env) :
    (s.changeContext p change start env).1.Regular := by
  obtain ⟨own, context, heq, hown⟩ := changeContext_eq p change start s env
  rw [heq]
  rcases hown with rfl | ⟨id, rfl⟩
  · exact h.congr rfl rfl rfl rfl rfl
  · have hpushed := h.pushRecord (r := ⟨id, signedPos s.pos, signedPos s.pos, Record.contextSize⟩)
      (Record.fitsAbove_of_neg (by decide : Record.contextSize < 0) _)
    exact hpushed.congr rfl rfl rfl rfl rfl

theorem recordToken (h : s.Regular) (term start stop : Nat) :
    (s.recordToken p term start stop).Regular := by
  unfold Stack.recordToken
  split
  · exact h.pushRecord (Record.fitsAbove_of_single rfl _)
  · exact h

/-- Storing a node whose size fits. -/
theorem appendNode (h : s.Regular) {r : Record} (hr : r.FitsAbove s.records.length)
    (hnode : 0 ≤ r.size) (sink : Bool) : (s.appendNode r sink).Regular := by
  unfold Stack.appendNode
  split
  · exact h.pushRecord hr
  · exact h.withOwn (Nat.le_succ _) (AllFit.sinkInto h.fit hr hnode)

theorem extendLast (h : s.Regular) (stop : Nat) : (s.extendLast stop).Regular := by
  cases hown : s.own.items with
  | nil =>
      have hsame : s.extendLast stop = s := by
        unfold Stack.extendLast
        rw [hown]
      rw [hsame]
      exact h
  | cons e rest =>
      have hfit : AllFit ((e :: rest) ++ s.frozen.flatten) := hown ▸ h.fit
      have hsize := s.own.size_eq
      rw [extendLast_of_cons hown]
      refine h.withOwn ?_ ?_
      · simp only [hown, List.length_cons] at hsize
        simp only [Pile.size_push, Pile.size_drop]
        omega
      · simp only [Pile.items_push, Pile.items_drop, hown, List.drop_succ_cons, List.drop_zero]
        exact AllFit.replace hfit rfl

/-- **Storing a node whose size fits**, wherever it goes. -/
theorem addNode (h : s.Regular) {size : Nat} (hsize : s.SizeFits size) (term start stop : Nat)
    (sink : Bool) : (s.addNode term start stop size sink).Regular := by
  have hlength := h.chained.bufferLength_eq
  have hfits : Record.FitsAbove s.records.length
      ⟨term, signedPos start, signedPos stop, size⟩ := by
    obtain ⟨hpos, hdvd, hle⟩ := hsize
    intro _
    refine ⟨?_, ?_, ?_⟩
    · show (4 : Int) ≤ size
      omega
    · show (4 : Int) ∣ size
      omega
    · show (size : Int) ≤ 4 * (s.records.length + 1)
      omega
  rcases addNode_cases s term start stop size sink with ⟨-, heq⟩ | ⟨e, rest, -, -, -, -, heq⟩ | heq
  · rw [heq]
    exact h
  · rw [heq]
    exact h.extendLast stop
  · rw [heq]
    exact h.appendNode hfits (Int.natCast_nonneg size) sink

theorem storeError (h : s.Regular) : s.storeError.Regular := h.addNode s.sizeFits_four _ _ _ _

/-! ### Frames -/

/-- A frame notes how many slots there are. -/
theorem pushState (h : s.Regular) (state start : Nat) : (s.pushState state start).Regular := by
  have hlength := h.chained.bufferLength_eq
  have hsame : SameChain s (s.pushState state start) := ⟨rfl, rfl, rfl⟩
  refine ⟨hsame.chained h.chained, h.noted, h.fit, ?_, ?_⟩
  · refine List.forall_mem_cons.2 ⟨⟨?_, Nat.le_refl _⟩, h.saved⟩
    show 4 ∣ s.bufferLength
    omega
  · exact List.pairwise_cons.2 ⟨fun f hf => (h.saved f hf).2, h.falling⟩

/-- Frames may be popped. -/
theorem withFrames (h : s.Regular) {frames : Pile Frame}
    (hsub : frames.items.Sublist s.frames.items) (state : Nat) :
    Regular { s with frames, state } := by
  have hsame : SameChain s { s with frames, state } := ⟨rfl, rfl, rfl⟩
  exact ⟨hsame.chained h.chained, h.noted, h.fit, fun f hf => h.saved f (hsub.subset hf),
    h.falling.sublist hsub⟩

/-! ### Reducing and shifting -/

theorem beginReduce (h : s.Regular) (p : Parser) (term : Nat) : (s.beginReduce p term).Regular := by
  unfold Stack.beginReduce
  simp only
  split
  · exact (h.raiseLookAhead s.pos).congr rfl rfl rfl rfl rfl
  · exact h.congr rfl rfl rfl rfl rfl

/-- A reduction that notes how far the parse has looked finds a record: it marks the look-ahead now,
or it was raised before. -/
theorem four_le_beginReduce (h : s.Regular) (hfar : s.looksFar = true) (p : Parser) (term : Nat) :
    4 ≤ (s.beginReduce p term).bufferLength := by
  have hne : (s.beginReduce p term).records ≠ [] := by
    have hsame : (s.beginReduce p term).records = (s.raiseLookAhead s.pos).records := by
      unfold Stack.beginReduce
      simp only
      rw [if_pos hfar]
      rfl
    rw [hsame, Stack.raiseLookAhead]
    split
    · exact records_mark_ne_nil s _ _
    · rename_i hlow
      rw [looksFar, decide_eq_true_eq] at hfar
      exact h.noted (by omega)
  have hlength := (h.beginReduce p term).chained.bufferLength_eq
  have hpos := List.length_pos_iff.2 hne
  omega

theorem reduceEmpty (h : s.Regular) {size : Nat} (hsize : s.SizeFits size) (p : Parser)
    (term : Nat) (env : Env) : (s.reduceEmpty p term size env).1.Regular := by
  have hpushed := h.pushState (p.gotoState s.state term) s.reducePos
  unfold Stack.reduceEmpty
  simp only
  refine changeContext ?_ _ _ _
  split
  · exact hpushed.addNode ⟨hsize.pos, hsize.dvd, hsize.le⟩ _ _ _ _
  · exact hpushed

/-- What a reduction counts: all records since a symbol began, or all that there are. -/
theorem sizeFits_count (h : s.Regular) (kept : Pile Frame)
    (hsub : kept.items.Sublist s.frames.items) :
    s.SizeFits (s.bufferLength - (kept.top?.map (·.bufferPos)).getD 0 + 4) := by
  have hlength := h.chained.bufferLength_eq
  have hdvd : 4 ∣ (kept.top?.map (·.bufferPos)).getD 0 := by
    cases htop : kept.top? with
    | none => exact Nat.dvd_zero 4
    | some f => exact (h.saved f (hsub.subset (List.mem_of_mem_head? htop))).1
  exact ⟨by omega, by omega, by omega⟩

theorem reduceSome (h : s.Regular) (p : Parser) (word : Nat) (env : Env) :
    (s.reduceSome p word env).1.Regular := by
  have hsub : (s.frames.drop (popCount word)).items.Sublist s.frames.items :=
    List.drop_sublist _ _
  unfold Stack.reduceSome
  simp only
  refine changeContext ?_ _ _ _
  split
  · refine withFrames (h.addNode (h.sizeFits_count _ hsub) _ _ _ _) ?_ _
    rw [frames_addNode]
    exact hsub
  · exact h.withFrames hsub _

/-- **What a reduction keeps**, whatever its depth. -/
theorem reduce (h : s.Regular) (p : Parser) (word : Nat) (env : Env) :
    (s.reduce p word env).1.Regular := by
  have hbegun := h.beginReduce p (ActionWord.value word)
  unfold Stack.reduce
  simp only
  split
  · refine hbegun.reduceEmpty ?_ p _ env
    split
    · rename_i hfar
      have hfour := h.four_le_beginReduce hfar p (ActionWord.value word)
      exact ⟨by decide, by decide, by omega⟩
    · exact sizeFits_four _
  · exact hbegun.reduceSome p word env

theorem shift (h : s.Regular) (p : Parser) (word term start stop : Nat) (env : Env) :
    (s.shift p word term start stop env).1.Regular := by
  unfold Stack.shift
  split
  · exact h.pushState _ _
  · split
    · have hmoved : Regular { s with pos := stop } := h.congr rfl rfl rfl rfl rfl
      exact (hmoved.changeContext _ _ _).recordToken _ _ _
    · refine ((pushState ?_ word start).changeContext _ _ _).recordToken _ _ _
      split
      · split
        · exact h.congr rfl rfl rfl rfl rfl
        · exact h.congr rfl rfl rfl rfl rfl
      · exact h

theorem adopt (h : s.Regular) (p : Parser) (node : Tree) (state : Nat) (env : Env) :
    (s.adopt p node state env).1.Regular := by
  have hmoved : Regular { s with pos := s.pos + node.length, reducePos := s.pos + node.length } :=
    h.congr rfl rfl rfl rfl rfl
  have hpushed := hmoved.pushState state s.pos
  unfold Stack.adopt
  simp only
  refine (hpushed.pushRecord ?_).changeContext _ _ _
  exact Record.fitsAbove_of_neg (by decide : Record.reuseSize < 0) _

/-! ### Repairs -/

/-- The error around a token that is left out counts the token, which is there by then. -/
theorem deleteToken (h : s.Regular) (p : Parser) (term stop : Nat) :
    (s.deleteToken p term stop).Regular := by
  unfold Stack.deleteToken
  simp only
  split
  · rename_i hnode
    have hadded := h.addNode s.sizeFits_four term s.pos stop false
    have hlength := hadded.chained.bufferLength_eq
    have hpos := List.length_pos_iff.2 (records_addNode_ne_nil s term s.pos stop 4 false)
    have hfits : (s.addNode term s.pos stop 4 false).SizeFits 8 :=
      ⟨by decide, by decide, by omega⟩
    exact (hadded.addNode hfits _ _ _ _).congr rfl rfl rfl rfl rfl
  · exact (h.addNode s.sizeFits_four _ _ _ _).congr rfl rfl rfl rfl rfl

theorem insertToken (h : s.Regular) (p : Parser) (term state : Nat) (env : Env) :
    (s.insertToken p term state env).1.Regular := by
  have hpushed := h.pushState state s.pos
  exact (hpushed.storeError.changeContext _ _ _).congr rfl rfl rfl rfl rfl

theorem caughtUp (h : s.Regular) (p : Parser) (allowed : Bool) :
    (s.caughtUp p allowed).Regular := by
  cases allowed with
  | true => exact h.congr rfl rfl rfl rfl rfl
  | false => exact h.storeError.congr rfl rfl rfl rfl rfl

theorem leaveRule (h : s.Regular) {env : Env} {r : Stack × Env}
    (hr : s.leaveRule p env = (true, r)) : r.1.Regular := by
  obtain ⟨word, allowed, -, rfl⟩ := leaveRule_eq_true hr
  exact (h.caughtUp p allowed).reduce p word env

theorem restart (h : s.Regular) : s.restart.Regular :=
  h.storeError.withFrames (List.nil_sublist _) _

theorem close (h : s.Regular) (p : Parser) : (s.close p).Regular := by
  unfold Stack.close
  simp only
  have hmarked : Regular (if p.tracker.any (·.strict) then s.markContext else s) := by
    split
    · exact h.markContext
    · exact h
  generalize (if p.tracker.any (·.strict) then s.markContext else s) = marked at hmarked ⊢
  split
  · exact hmarked.markLookAhead
  · exact hmarked

/-! ### All operations -/

/-- Splitting moves records, and keeps them all. -/
theorem freeze (h : s.Regular) (id : Nat) : (s.freeze id).Regular := by
  have hframes : (s.freeze id).frames = s.frames ∧ (s.freeze id).lookAhead = s.lookAhead := by
    unfold Stack.freeze
    simp only
    split
    · exact ⟨rfl, rfl⟩
    · exact ⟨rfl, rfl⟩
  refine ⟨h.chained.freeze id, ?_, ?_, ?_, ?_⟩
  · rw [hframes.2, records_freeze]
    exact h.noted
  · rw [records_freeze]
    exact h.fit
  · rw [hframes.1, bufferLength_freeze]
    exact h.saved
  · rw [hframes.1]
    exact h.falling

theorem start (p : Parser) (pos : Nat) : (Stack.start p pos).Regular where
  chained := ⟨rfl, fun _ hpiece => (List.not_mem_nil hpiece).elim⟩
  noted := fun hlook => (Nat.lt_irrefl 0 hlook).elim
  fit := trivial
  saved := fun _ hf => (List.not_mem_nil hf).elim
  falling := List.Pairwise.nil

/-- **What a move of a parse keeps.** -/
theorem move (h : s.Regular) {ok : Nat → Prop} (hmove : TokenMove p ok s s') : s'.Regular := by
  cases hmove with
  | split env => exact h.freeze _
  | look pos => exact h.raiseLookAhead pos
  | reduce word env => exact h.reduce p word env
  | shift word start stop env _ => exact h.shift p word _ start stop env
  | leave hleave => exact h.leaveRule hleave
  | insert term state env => exact h.insertToken p term state env
  | delete stop _ => exact h.deleteToken p _ stop
  | error => exact h.storeError
  | restart => exact h.restart

end Regular

/-- A node that is stored as such has a size that fits; all others are counted. -/
def Operation.HasSize (s : Stack) : Operation → Prop
  | store _ _ _ size _ => s.SizeFits size
  | _ => True

instance (s : Stack) : (op : Operation) → Decidable (op.HasSize s)
  | .store _ _ _ size _ => inferInstanceAs (Decidable (s.SizeFits size))
  | .shift .. | .reduce _ | .adopt .. | .delete .. | .insert _ | .leave | .restart | .look _
  | .close | .split => isTrue trivial

/-- **What an operation keeps**, of the stack and of those that it splits off. -/
theorem Regular.run {s : Stack} (h : s.Regular) (p : Parser) {op : Operation}
    (hsize : op.HasSize s) (env : Env) :
    (op.run p s env).1.Regular ∧ ∀ x ∈ (op.run p s env).2.1, x.Regular := by
  have hnone : ∀ x ∈ ([] : List Stack), x.Regular := fun _ hx => (List.not_mem_nil hx).elim
  cases op with
  | shift word term start stop => exact ⟨h.shift p word term start stop env, hnone⟩
  | reduce word => exact ⟨h.reduce p word env, hnone⟩
  | store term start stop size sink => exact ⟨h.addNode hsize term start stop sink, hnone⟩
  | adopt node state => exact ⟨h.adopt p node state env, hnone⟩
  | delete term stop => exact ⟨h.deleteToken p term stop, hnone⟩
  | insert next =>
      have hmove : ∀ s s' : Stack, s.Regular → TokenMove p (fun _ => True) s s' → s'.Regular :=
        fun _ _ hs hmove => hs.move hmove
      exact Parse.all_insertTokens hmove h next env
  | leave =>
      rw [Operation.run]
      rcases hleave : s.leaveRule p env with ⟨_ | _, r⟩
      · obtain ⟨-, rfl⟩ := leaveRule_eq_false hleave
        exact ⟨h, hnone⟩
      · exact ⟨h.leaveRule hleave, hnone⟩
  | restart => exact ⟨h.restart, hnone⟩
  | look pos => exact ⟨h.raiseLookAhead pos, hnone⟩
  | close => exact ⟨h.close p, hnone⟩
  | split => exact ⟨h.freeze _, List.forall_mem_singleton.2 (h.freeze _)⟩

/-! ### Back to slots -/

/-- **Frames and records, as slots.** -/
theorem Regular.sound {s : Stack} (h : s.Regular) : s.Sound := by
  have hlength : s.fullBuffer.length = 4 * s.records.length := by
    rw [fullBuffer_eq, length_slotsOf]
  have hbuffer := h.chained.bufferLength_eq
  -- the third slot of a frame is the position that it notes
  have hframe : ∀ i b, s.frameSlots[3 * i + 2]? = some b →
      ∃ f, s.frames.items.reverse[i]? = some f ∧ f.bufferPos = b := by
    intro i b hb
    rw [frameSlots, getElem?_flatMap_slots Frame.length_slots (by decide)] at hb
    obtain ⟨f, hf, hslot⟩ := Option.bind_eq_some_iff.1 hb
    exact ⟨f, hf, Option.some.inj hslot⟩
  refine ⟨?_, ?_, ?_, hbuffer.trans hlength.symm, ?_, ?_, ?_⟩
  · rw [length_frameSlots]
    exact Nat.dvd_mul_right 3 _
  · rw [length_slotsOf]
    exact Nat.dvd_mul_right 4 _
  · intro piece _
    rw [length_slotsOf]
    exact Nat.dvd_mul_right 4 _
  · intro i b hb
    obtain ⟨f, hf, rfl⟩ := hframe i b hb
    rw [hlength, ← hbuffer]
    exact h.saved f (List.mem_reverse.1 (List.mem_of_getElem? hf))
  · intro i j a b hle ha hb
    obtain ⟨f, hf, rfl⟩ := hframe i a ha
    obtain ⟨f', hf', rfl⟩ := hframe j b hb
    rcases Nat.eq_or_lt_of_le hle with rfl | hlt
    · rw [Option.some.inj (hf.symm.trans hf')]
    · obtain ⟨hi, rfl⟩ := List.getElem?_eq_some_iff.1 hf
      obtain ⟨hj, rfl⟩ := List.getElem?_eq_some_iff.1 hf'
      exact List.pairwise_iff_getElem.1 (List.pairwise_reverse.2 h.falling) i j hi hj hlt
  · intro i n hn hnode
    rw [fullBuffer_eq, slotsOf, getElem?_flatMap_slots Record.length_slots (by decide)] at hn
    obtain ⟨r, hr, hslot⟩ := Option.bind_eq_some_iff.1 hn
    obtain rfl := Option.some.inj hslot
    obtain ⟨hfour, hdvd, hsize⟩ := h.fit.getElem?_reverse hr hnode
    exact ⟨by omega, hdvd, by omega⟩

end Stack

/-! ### The stacks of a parse -/

namespace Pool

variable {p : Parser} {pool : Pool}

/-- Nodes are stored with sizes that fit, each when it is stored. -/
def HaveSizes (p : Parser) : List (Nat × Stack.Operation) → Pool → Prop
  | [], _ => True
  | op :: rest, pool =>
      (∀ s ∈ pool.members[op.1]?, op.2.HasSize s) ∧ HaveSizes p rest (pool.apply p op.1 op.2)

instance (p : Parser) : (ops : List (Nat × Stack.Operation)) → (pool : Pool) →
    Decidable (HaveSizes p ops pool)
  | [], _ => isTrue trivial
  | op :: rest, pool =>
      have : Decidable (HaveSizes p rest (pool.apply p op.1 op.2)) :=
        instDecidableHaveSizes p rest _
      inferInstanceAs (Decidable ((∀ s ∈ pool.members[op.1]?, op.2.HasSize s) ∧
        HaveSizes p rest (pool.apply p op.1 op.2)))

/-- Nodes without children fit anywhere: a parse stores no others as such. -/
theorem haveSizes_of_four {ops : List (Nat × Stack.Operation)}
    (h : ∀ i term start stop size sink, (i, .store term start stop size sink) ∈ ops → size = 4) :
    HaveSizes p ops pool := by
  induction ops generalizing pool with
  | nil => trivial
  | cons op rest ih =>
      refine ⟨fun s _ => ?_, ih fun i term start stop size sink hop =>
        h i term start stop size sink (List.mem_cons_of_mem _ hop)⟩
      obtain ⟨i, op⟩ := op
      cases op with
      | store term start stop size sink =>
          obtain rfl := h i term start stop size sink (List.mem_cons_self ..)
          exact s.sizeFits_four
      | _ => trivial

theorem apply_regular (h : ∀ s ∈ pool.members, s.Regular) (i : Nat) {op : Stack.Operation}
    (hsize : ∀ s ∈ pool.members[i]?, op.HasSize s) :
    ∀ s ∈ (pool.apply p i op).members, s.Regular := by
  cases hs : pool.members[i]? with
  | none =>
      unfold apply
      rw [hs]
      exact h
  | some s =>
      obtain ⟨hself, hnew⟩ := (h s (List.mem_of_getElem? hs)).run p (hsize s hs) pool.env
      rw [apply_eq hs]
      intro x hx
      rcases List.mem_append.1 hx with hx | hx
      · rcases List.mem_or_eq_of_mem_set hx with hx | rfl
        · exact h x hx
        · exact hself
      · exact hnew x hx

theorem applyAll_regular {ops : List (Nat × Stack.Operation)} (h : ∀ s ∈ pool.members, s.Regular)
    (hsizes : HaveSizes p ops pool) : ∀ s ∈ (pool.applyAll p ops).members, s.Regular := by
  induction ops generalizing pool with
  | nil => exact h
  | cons op rest ih => exact ih (apply_regular h op.1 hsizes.1) hsizes.2

/-- **All stacks that operations lead to are sound**: shifts, reductions of any depth, takeovers,
repairs, splits and the end of a parse, in any order and over any tables. -/
theorem applyAll_sound (p : Parser) (pos : Nat) (env : Env) (ops : List (Nat × Stack.Operation))
    (hsizes : HaveSizes p ops (start p pos env)) :
    ∀ s ∈ ((start p pos env).applyAll p ops).members, s.Sound := by
  have hstart : ∀ s ∈ (start p pos env).members, s.Regular :=
    List.forall_mem_singleton.2 (.start p pos)
  exact fun s hs => (applyAll_regular hstart hsizes s hs).sound

/-- A token and its copy: behind the one a token is skipped, below which a node sinks; the other one
is followed by a token that is left out, and by a node over all of that. -/
def twoWays : List (Nat × Stack.Operation) :=
  [(0, .shift (Action.shift 1).code 3 0 1), (0, .split), (0, .shift Action.skip.code 3 1 2),
    (0, .reduce (ActionWord.reduction 2 1)), (1, .delete 3 2), (1, .store 2 0 2 12 true)]

theorem applyAll_sound_twoWays : HaveSizes Parse.pairParser twoWays
      (start Parse.pairParser 0 Stack.pairEnv) ∧
    ∃ s x, ((start Parse.pairParser 0 Stack.pairEnv).applyAll Parse.pairParser twoWays).members =
        [s, x] ∧
      s.frameSlots = [0, 0, 0] ∧ s.fullBuffer = [3, 0, 1, 4, 2, 0, 1, 8, 3, 1, 2, 4] ∧
      x.fullBuffer = [3, 0, 1, 4, 3, 1, 2, 4, 0, 1, 2, 8, 2, 0, 2, 12] ∧ s.Sound ∧ x.Sound := by
  have hsizes : HaveSizes Parse.pairParser twoWays (start Parse.pairParser 0 Stack.pairEnv) := by
    decide +kernel
  have hslots : ((start Parse.pairParser 0 Stack.pairEnv).applyAll Parse.pairParser
      twoWays).members.map (fun s => (s.frameSlots, s.fullBuffer)) =
        [([0, 0, 0], [3, 0, 1, 4, 2, 0, 1, 8, 3, 1, 2, 4]),
          ([0, 0, 0], [3, 0, 1, 4, 3, 1, 2, 4, 0, 1, 2, 8, 2, 0, 2, 12])] := by decide +kernel
  have hsound := applyAll_sound Parse.pairParser 0 Stack.pairEnv twoWays hsizes
  generalize ((start Parse.pairParser 0 Stack.pairEnv).applyAll Parse.pairParser
    twoWays).members = members at hslots hsound
  obtain ⟨s, rest, rfl, hs, hrest⟩ := List.map_eq_cons_iff.1 hslots
  obtain ⟨x, rest, rfl, hx, hnil⟩ := List.map_eq_cons_iff.1 hrest
  obtain rfl := List.map_eq_nil_iff.1 hnil
  obtain ⟨hframes, hfull⟩ := Prod.mk.inj hs
  exact ⟨hsizes, s, x, rfl, hframes, hfull, (Prod.mk.inj hx).2, hsound s (by simp),
    hsound x (by simp)⟩

end Pool

/-! ### Calls -/

namespace Parse

variable {p : Parser} {doc : Document} {fragments : List Fragment} {ranges : List Span}
  {epoch limit : Nat} {q₀ q : Parse}

/-- **All stacks that a parse follows are sound**, whatever the calls, and those that trees are
built from. -/
theorem Used.sound (hstart : Parse.start p doc fragments ranges epoch limit = .ok q₀)
    (hused : Used q₀ q) : ∀ s ∈ q.live, s.Sound ∧ (s.close p).Sound := by
  have hread : p.ReadsOnly fun _ => True := fun t _ v _ =>
    Scan.acceptsOnly_of_forall (fun _ => trivial) _
  have hobeys := hused.obeys (K := Stack.Regular) hread (fun _ _ => trivial)
    (fun _ _ hs hmove => hs.move hmove) (fun _ _ hs node state env => hs.adopt p node state env)
    (start_obeys hstart (fun _ => True) (.start _ _))
  intro s hs
  have hregular := hobeys.rest.1 s hs
  exact ⟨hregular.sound, (hregular.close p).sound⟩

end Parse

end IncrementalLR
