/-
**What a builder hears of look-ahead.**

A builder reads records backwards, and the look-ahead position that holds at its place changes at
marks only.  The *trail* of a builder pairs the records that it has still to read with the positions
that hold there.  Whatever a builder does, it does no more than move on along its trail, so what
holds along the trail once holds ever after.

On the trails of parses positions fall, since a parse marks a position only when it looks further.
The node of a record then reaches as far as everything below it, which is read later.  Repetitions
that are cut into leaves are an exception: balancing the leaves takes the place that a leaf reaches
for a distance.  It does no harm where nothing is recorded.

Main definitions:

* `trailFrom`, `Builder.trail` — records with the look-ahead positions that hold there;
* `BuildPlan.Spares` — a repetition that is not cut, or for which nothing is recorded;
* `Builder.Calm` — what is asked of the trail of a builder;
* `Builder.Heard`, `Builder.Family.Heard` — what is known of new children;
* `Builder.Collecting` — a builder in the middle of the children of a parent.

Main results:

* `Builder.takeNodeF_cases`, `Builder.takeChildrenF_cases` — what one step of a builder does;
* `Builder.trail_take` — taking nodes moves on along the trail;
* `Builder.take_hears` — what taking a node, and taking the children of one, puts into a tree;
* `Tree.reachesChildren_buildFrom` — **every node of a tree that is built along a calm trail reaches
  as far as its children**.
-/

import IncrementalLR.Proofs.Building
import IncrementalLR.Proofs.Reach

set_option relaxedAutoImplicit false
set_option autoImplicit false

namespace IncrementalLR

namespace Record

/-- The look-ahead position that holds before a mark. -/
def lookAhead? (r : Record) : Option Nat :=
  if r.size = lookAheadSize then some r.id.toNat else none

theorem lookAhead?_of_node {r : Record} (h : 0 ≤ r.size) : r.lookAhead? = none := by
  refine if_neg ?_
  unfold lookAheadSize
  omega

end Record

/-! ### Trails -/

/-- Records, newest first, with the look-ahead positions that hold there. -/
def trailFrom : Nat → List Record → List (Nat × Record)
  | _, [] => []
  | la, c :: rest => (c.lookAhead?.getD la, c) :: trailFrom (c.lookAhead?.getD la) rest

/-- A trail goes along the records. -/
theorem mem_of_mem_trailFrom {la : Nat} {rs : List Record} {x : Nat × Record}
    (h : x ∈ trailFrom la rs) : x.2 ∈ rs := by
  induction rs generalizing la with
  | nil => cases h
  | cons c rest ih =>
      rcases List.mem_cons.1 h with rfl | h
      · exact List.mem_cons_self
      · exact List.mem_cons_of_mem _ (ih h)

namespace Builder

/-- The records that are left to a builder, with the look-ahead positions that hold there. -/
def trail (b : Builder) : List (Nat × Record) := trailFrom b.lookAhead b.reader.records

theorem lookAhead_mark (b : Builder) (r : Record) :
    (b.mark r).lookAhead = r.lookAhead?.getD b.lookAhead := by
  unfold mark Record.lookAhead?
  split
  · rename_i hcontext
    rw [if_neg (by rw [hcontext]; decide)]
    rfl
  · split <;> rfl

theorem mark_of_ne (b : Builder) {r : Record} (hcontext : r.size ≠ Record.contextSize)
    (hahead : r.size ≠ Record.lookAheadSize) : b.mark r = b := by
  unfold mark
  rw [if_neg hcontext, if_neg hahead]

theorem mark_of_node (b : Builder) {r : Record} (h : 0 ≤ r.size) : b.mark r = b := by
  refine b.mark_of_ne ?_ ?_
  · unfold Record.contextSize
    omega
  · unfold Record.lookAheadSize
    omega

/-- Reading a record moves on along the trail. -/
theorem trail_read (b : Builder) : (b.next.mark b.reader.record).trail <:+ b.trail := by
  unfold trail
  rw [lookAhead_mark, reader_mark]
  obtain ⟨⟨pos, current, older⟩, hash, la⟩ := b
  cases current with
  | nil =>
      have hsame : (Reader.next ⟨pos, [], older⟩).records = Reader.records ⟨pos, [], older⟩ :=
        Reader.records_refill _
      simp only [next, hsame]
      exact List.suffix_refl _
  | cons c rest =>
      have hnext : (Reader.next ⟨pos, c :: rest, older⟩).records = rest ++ older.flatten :=
        Reader.records_next _ (by simp)
      simp only [next, hnext]
      exact List.suffix_cons _ _

theorem trail_next {b : Builder} (hcontext : b.reader.record.size ≠ Record.contextSize)
    (hahead : b.reader.record.size ≠ Record.lookAheadSize) : b.next.trail <:+ b.trail := by
  have key := b.trail_read
  rwa [mark_of_ne _ hcontext hahead] at key

theorem trail_next_of_node {b : Builder} (h : 0 ≤ b.reader.record.size) :
    b.next.trail <:+ b.trail := by
  have key := b.trail_read
  rwa [mark_of_node _ h] at key

/-! ### What one step does -/

/-- The node at the reader as the parent of what is below it. -/
def parentAt (d : BuildPlan) (b : Builder) (type : NodeType) (depth : Nat) : Parent where
  type := type
  start := b.reader.record.startPos
  stop := b.reader.record.stopPos
  inRepeat := if d.repeatFrom ≤ b.reader.record.id then b.reader.record.id else -1
  lookAhead := b.lookAhead
  contextHash := b.contextHash
  depth := depth

section Reading

variable {d : BuildPlan} {fuel minPos : Nat} {b : Builder}

/-- What taking a node does: it takes a mark, packs a run, or takes a node with its children. -/
theorem takeNodeF_cases {parentStart depth : Nat} {inRepeat : Int} {cs : List (Nat × Tree)}
    {r : List (Nat × Tree) × Builder}
    (h : takeNodeF d (fuel + 1) parentStart minPos inRepeat depth cs b = .ok r) :
    takeMarker d parentStart cs b = .ok r ∨
      0 ≤ b.reader.record.size ∧
        ((∃ run, findRun d b.reader minPos inRepeat = some run ∧
            r = ((Tree.word (run.start - parentStart),
              (pack d b run b.reader.record.stopPos).2) :: cs,
                (pack d b run b.reader.record.stopPos).1)) ∨
          ∃ ty r', (b.reader.record.stopPos - b.reader.record.startPos ≤ d.maxBuffer →
              findRun d b.reader minPos inRepeat = none) ∧
            takeChildrenF d fuel (parentAt d b ty depth)
              (b.reader.pos - b.reader.record.size.toNat)
              { groupStop := b.reader.record.stopPos } b.next = .ok r' ∧
            r = ((Tree.word (b.reader.record.startPos - parentStart),
              r'.1.node (parentAt d b ty depth)) :: cs, r'.2)) := by
  rw [takeNodeF] at h
  simp only at h
  split at h
  · exact Or.inl h
  · split at h
    · cases h
    · refine Or.inr ⟨by omega, ?_⟩
      obtain ⟨ty, _, h⟩ := bind_ok h
      split at h
      · rename_i run hrun
        split at hrun
        · exact Or.inl ⟨run, hrun, (Except.ok.inj h).symm⟩
        · cases hrun
      · rename_i hrun
        obtain ⟨r', htake, h⟩ := bind_ok h
        refine Or.inr ⟨ty, r', fun hle => ?_, htake, (Except.ok.inj h).symm⟩
        rwa [if_pos hle] at hrun

/-- What taking the children of a parent does: it is done, passes a node of the repetition itself,
or takes some children and goes on. -/
theorem takeChildrenF_cases {p : Parent} {f : Family} {r : Family × Builder}
    (h : takeChildrenF d (fuel + 1) p minPos f b = .ok r) :
    r = (f, b) ∨ minPos < b.reader.pos ∧
      ((0 ≤ p.inRepeat ∧ b.reader.record.id = p.inRepeat ∧ 0 ≤ b.reader.record.size) ∧
          takeChildrenF d fuel p minPos
            (if b.reader.record.stopPos + d.maxBuffer ≤ f.groupStop then
              f.close p b.reader.record.stopPos else f) b.next = .ok r ∨
        ¬ (0 ≤ p.inRepeat ∧ b.reader.record.id = p.inRepeat ∧ 0 ≤ b.reader.record.size) ∧
          ∃ taken, (takeFlat d p.start minPos f.children b = .ok taken ∨
              takeNodeF d fuel p.start minPos p.inRepeat (p.depth + 1) f.children b = .ok taken) ∧
            takeChildrenF d fuel p minPos { f with children := taken.1 } taken.2 = .ok r) := by
  rw [takeChildrenF] at h
  simp only at h
  split at h
  · exact Or.inl (Except.ok.inj h).symm
  · rename_i hleft
    refine Or.inr ⟨Nat.lt_of_not_le hleft, ?_⟩
    split at h
    · rename_i hsame
      simp only [Bool.and_eq_true, decide_eq_true_eq, and_assoc] at hsame
      exact Or.inl ⟨hsame, h⟩
    · rename_i hother
      simp only [Bool.and_eq_true, decide_eq_true_eq, and_assoc] at hother
      refine Or.inr ⟨hother, ?_⟩
      split at h
      · obtain ⟨taken, htake, h⟩ := bind_ok h
        exact ⟨taken, Or.inl htake, h⟩
      · obtain ⟨taken, htake, h⟩ := bind_ok h
        exact ⟨taken, Or.inr htake, h⟩

/-! ### Moving on -/

theorem trail_collectF (minPos fuel : Nat) (b : Builder) (floor : Option Nat)
    (nodes : List Record) : (collectF d minPos fuel b floor nodes).1.trail <:+ b.trail := by
  induction fuel generalizing b floor nodes with
  | zero => exact List.suffix_refl _
  | succ fuel ih =>
      rw [collectF]
      split
      · exact List.suffix_refl _
      · split
        · exact (ih _ _ _).trans (trail_next_of_node (by omega))
        · split
          · exact List.suffix_refl _
          · rename_i hkept
            simp only [Bool.or_eq_true, decide_eq_true_eq, not_or] at hkept
            exact (ih _ _ _).trans (trail_next_of_node (by omega))

/-- Copying moves on along the trail. -/
theorem trail_copy (d : BuildPlan) (base fuel : Nat) :
    (∀ b index out, (copyNodeF d base fuel b index out).1.trail <:+ b.trail) ∧
      ∀ stop b index out, (copyRunF d base fuel stop b index out).1.trail <:+ b.trail := by
  induction fuel with
  | zero => exact ⟨fun _ _ _ => List.suffix_refl _, fun _ _ _ _ => List.suffix_refl _⟩
  | succ fuel ih =>
      refine ⟨fun b index out => ?_, fun stop b index out => ?_⟩
      · rw [copyNodeF]
        simp only
        split
        · rename_i hnode
          simp only [Bool.and_eq_true, decide_eq_true_eq] at hnode
          have hnext := trail_next_of_node hnode.1
          split
          · exact (ih.2 _ _ _ _).trans hnext
          · exact hnext
        · exact b.trail_read
      · rw [copyRunF]
        split
        · exact List.suffix_refl _
        · exact (ih.2 _ _ _ _).trans (ih.1 _ _ _)

theorem trail_takeMarker {parentStart : Nat} {cs : List (Nat × Tree)} {b : Builder}
    {r : List (Nat × Tree) × Builder} (h : takeMarker d parentStart cs b = .ok r) :
    r.2.trail <:+ b.trail := by
  unfold takeMarker at h
  simp only at h
  split at h
  · rename_i hreuse
    split at h
    · obtain rfl := Except.ok.inj h
      exact trail_next (by rw [hreuse]; decide) (by rw [hreuse]; decide)
    · cases h
  · split at h
    · obtain rfl := Except.ok.inj h
      exact b.trail_read
    · cases h

theorem trail_takeFlat {parentStart minPos : Nat} {cs : List (Nat × Tree)} {b : Builder}
    {r : List (Nat × Tree) × Builder} (h : takeFlat d parentStart minPos cs b = .ok r) :
    r.2.trail <:+ b.trail := by
  have hcollected := trail_collectF (d := d) minPos b.reader.pos b none []
  unfold takeFlat at h
  simp only at h
  split at h
  · obtain rfl := Except.ok.inj h
    exact hcollected
  · split at h
    · exact (trail_takeMarker h).trans hcollected
    · obtain rfl := Except.ok.inj h
      exact hcollected

/-- **Taking nodes moves on along the trail.** -/
theorem trail_take (d : BuildPlan) (fuel : Nat) :
    (∀ {parentStart minPos depth : Nat} {inRepeat : Int} {cs : List (Nat × Tree)} {b : Builder}
        {r : List (Nat × Tree) × Builder},
      takeNodeF d fuel parentStart minPos inRepeat depth cs b = .ok r → r.2.trail <:+ b.trail) ∧
    ∀ {p : Parent} {minPos : Nat} {f : Family} {b : Builder} {r : Family × Builder},
      takeChildrenF d fuel p minPos f b = .ok r → r.2.trail <:+ b.trail := by
  induction fuel with
  | zero =>
      constructor
      · intro _ _ _ _ cs b r h
        obtain rfl := Except.ok.inj h
        exact List.suffix_refl _
      · intro p _ f b r h
        obtain rfl := Except.ok.inj h
        exact List.suffix_refl _
  | succ fuel ih =>
      constructor
      · intro parentStart minPos depth inRepeat cs b r h
        rcases takeNodeF_cases h with h | ⟨hsize, ⟨run, -, rfl⟩ | ⟨ty, r', -, htake, rfl⟩⟩
        · exact trail_takeMarker h
        · exact (trail_copy d _ _).2 _ _ _ _
        · exact (ih.2 htake).trans (trail_next_of_node hsize)
      · intro p minPos f b r h
        rcases takeChildrenF_cases h with rfl | ⟨-, ⟨hsame, h⟩ | ⟨-, taken, htake | htake, h⟩⟩
        · exact List.suffix_refl _
        · exact (ih.2 h).trans (trail_next_of_node hsame.2.2)
        · exact (ih.2 h).trans (trail_takeFlat htake)
        · exact (ih.2 h).trans (ih.1 htake)

end Reading

end Builder

/-! ### Calm trails -/

/-- A record on a trail is not that of a repetition that is long enough to be cut into leaves, or
nothing is recorded below it. -/
def BuildPlan.Spares (d : BuildPlan) (x : Nat × Record) : Prop :=
  d.repeatFrom ≤ x.2.id → 0 ≤ x.2.size →
    x.2.stopPos - x.2.startPos < d.maxBuffer ∨ x.1 ≤ x.2.startPos + lookAheadMargin

instance (d : BuildPlan) (x : Nat × Record) : Decidable (d.Spares x) :=
  inferInstanceAs (Decidable (_ → _ → _))

namespace Builder

/-- Along the trail look-ahead positions fall from a first one, repetitions are spared, and nothing
is taken over from other trees. -/
structure Calm (d : BuildPlan) (la : Nat) (b : Builder) : Prop where
  falling : b.trail.Pairwise fun x y => y.1 ≤ x.1
  below : ∀ x ∈ b.trail, x.1 ≤ la
  spares : ∀ x ∈ b.trail, d.Spares x
  fresh : ∀ x ∈ b.trail, x.2.size ≠ Record.reuseSize

namespace Calm

variable {d : BuildPlan} {la : Nat} {b b' : Builder}

/-- Trails stay calm. -/
theorem moveOn (h : b.Calm d la) (hsuffix : b'.trail <:+ b.trail) : b'.Calm d la :=
  ⟨h.falling.sublist hsuffix.sublist, fun x hx => h.below x (hsuffix.subset hx),
    fun x hx => h.spares x (hsuffix.subset hx), fun x hx => h.fresh x (hsuffix.subset hx)⟩

/-- Below a node look-ahead positions fall from that of the node. -/
theorem enter {c : Record} {rest : List Record} (h : b.Calm d la) (hb : b.reader.Holds (c :: rest))
    (hsize : 0 ≤ c.size) :
    b.lookAhead ≤ la ∧ d.Spares (b.lookAhead, c) ∧ b.next.Calm d b.lookAhead := by
  obtain ⟨hrecord, hnext⟩ := hb.next
  have htrail : b.trail = (b.lookAhead, c) :: b.next.trail := by
    unfold trail
    rw [hb.records_eq, trailFrom, Record.lookAhead?_of_node hsize]
    exact congrArg _ (congrArg _ hnext.records_eq.symm)
  have hmem : (b.lookAhead, c) ∈ b.trail := by
    rw [htrail]
    exact List.mem_cons_self
  have hfalling := h.falling
  rw [htrail, List.pairwise_cons] at hfalling
  have hon : b.next.Calm d la := h.moveOn (htrail ▸ List.suffix_cons _ _)
  exact ⟨h.below _ hmem, h.spares _ hmem, hon.falling, hfalling.1, hon.spares, hon.fresh⟩

/-- The record at the reader is not one of reuse. -/
theorem record_fresh (h : b.Calm d la) : b.reader.record.size ≠ Record.reuseSize := by
  have hfresh := h.fresh
  unfold trail Reader.records at hfresh
  unfold Reader.record
  cases hcurrent : b.reader.current with
  | nil => decide
  | cons c rest =>
      rw [hcurrent, List.cons_append, trailFrom] at hfresh
      exact hfresh _ List.mem_cons_self

end Calm

/-! ### Children -/

/-- What is known of a child of a node from `start` to `stop` for which the text was looked at up to
`la`: it obeys the law and reaches no further than the node does, and nothing is recorded with it if
`la` is close to the start of the node. -/
structure Heard (start stop la : Nat) (c : Nat × Tree) : Prop where
  reaches : c.2.ReachesChildren
  reachesBy : Tree.ReachesBy (max (stop + lookAheadMargin) la - start) c
  silent : la ≤ start + lookAheadMargin → c.2.Silent

theorem heard_packed (start stop la n : Nat) (buffer : Buffer) :
    Heard start stop la (n, .packed buffer) :=
  ⟨trivial, fun h => Bool.noConfusion h, fun _ => trivial⟩

/-- A node inside of another one for which the text was looked at as far or further. -/
theorem heard_node {parentStart start stop hi la la' : Nat} {t : Tree} (hlo : parentStart ≤ start)
    (hstop : stop ≤ hi) (hword : start ≤ maxWord) (hle : la' ≤ la) (hreaches : t.ReachesChildren)
    (hhorizon : start + t.horizon ≤ max (stop + lookAheadMargin) la')
    (hsilent : la' ≤ start + lookAheadMargin → t.Silent) :
    Heard parentStart hi la (Tree.word (start - parentStart), t) := by
  refine ⟨hreaches, fun _ => ?_, fun hquiet => hsilent (by omega)⟩
  simp only [Tree.word_of_le (n := start - parentStart) (by omega)]
  omega

theorem Heard.mono {start stop stop' la : Nat} {c : Nat × Tree} (h : Heard start stop la c)
    (hle : stop ≤ stop') : Heard start stop' la c := by
  refine ⟨h.reaches, fun hbranch => ?_, h.silent⟩
  have := h.reachesBy hbranch
  omega

/-- What is known of the children that were collected: as long as no leaf is finished they are those
of a node, and leaves are finished only where nothing is recorded. -/
inductive Family.Heard (p : Parent) : Family → Prop
  | whole {f : Family} : f.grouped = 0 →
      (∀ c ∈ f.children, Builder.Heard p.start p.stop p.lookAhead c) → Heard p f
  | cut {f : Family} : 0 < f.grouped → 0 ≤ p.inRepeat → p.lookAhead ≤ p.start + lookAheadMargin →
      (∀ c ∈ f.children, c.2.Silent) → Heard p f

namespace Family.Heard

variable {p : Parent} {f : Family}

/-- Nothing is recorded with the children if the look-ahead of the node is close to its start. -/
theorem silent (h : f.Heard p) (hquiet : p.lookAhead ≤ p.start + lookAheadMargin) :
    ∀ c ∈ f.children, c.2.Silent := by
  cases h with
  | whole _ hcs => exact fun c hc => (hcs c hc).silent hquiet
  | cut _ _ _ hcs => exact hcs

/-- More children. -/
theorem add (h : f.Heard p) {cs : List (Nat × Tree)}
    (hcs : ∀ c ∈ cs, c ∈ f.children ∨ Builder.Heard p.start p.stop p.lookAhead c) :
    Family.Heard p { f with children := cs } := by
  cases h with
  | whole hgrouped hold => exact .whole hgrouped fun c hc => (hcs c hc).elim (hold c) id
  | cut hgrouped hrepeat hquiet hold =>
      exact .cut hgrouped hrepeat hquiet fun c hc => (hcs c hc).elim (hold c) (·.silent hquiet)

/-- A leaf is finished. -/
theorem close (h : f.Heard p) (hrepeat : 0 ≤ p.inRepeat)
    (hquiet : p.lookAhead ≤ p.start + lookAheadMargin) (hstop : p.start ≤ f.groupStop)
    (start : Nat) : (f.close p start).Heard p := by
  have hsilent := h.silent hquiet
  refine .cut (Nat.succ_pos _) hrepeat hquiet (List.forall_mem_cons.2 ⟨?_, ?_⟩)
  · refine Tree.silent_makeBranch _ _ _ (by omega) fun c hc => ?_
    obtain ⟨x, hx, rfl⟩ := List.mem_map.1 hc
    exact hsilent x (List.mem_of_mem_take hx)
  · exact fun c hc => hsilent c (List.mem_of_mem_drop hc)

/-- **The node of a family** obeys the law, and reaches as far as its look-ahead position asks. -/
theorem node {ungrouped grouped : List (Nat × Tree)} (h : f.Heard p)
    (hfitted : f.Fitted p p.start ungrouped grouped) (hword : p.stop ≤ maxWord)
    (hahead : p.lookAhead ≤ maxWord) :
    (f.node p).ReachesChildren ∧
      p.start + (f.node p).horizon ≤ max (p.stop + lookAheadMargin) p.lookAhead ∧
      (p.lookAhead ≤ p.start + lookAheadMargin → (f.node p).Silent) := by
  have hstart := hfitted.start_le
  have hgroup := hfitted.hi_le
  have hstop := hfitted.stop_le
  cases h with
  | whole hgrouped hcs =>
      have hnode : f.node p = makeBranch p.type f.children (p.stop - p.start)
          (p.lookAhead - p.stop) p.contextHash := by
        unfold Family.node
        exact if_neg (by simp [hgrouped])
      rw [hnode]
      refine ⟨?_, ?_, fun hquiet => ?_⟩
      · refine Tree.reachesChildren_makeBranch _ _ (by omega) (by omega) fun c hc => ?_
        refine ⟨(hcs c hc).reaches, fun hbranch => ?_⟩
        have := (hcs c hc).reachesBy hbranch
        omega
      · rw [Tree.horizon_makeBranch _ _ _ (by omega) (by omega)]
        omega
      · exact Tree.silent_makeBranch _ _ _ (by omega) fun c hc => (hcs c hc).silent hquiet
  | cut hgrouped hrepeat hquiet hcs =>
      -- leaves on which nothing is recorded are balanced without recording anything
      obtain ⟨hformed, hlength⟩ := hfitted.node (by omega)
      have hsilent : (f.node p).Silent := by
        unfold Family.node
        rw [if_pos (by simp [hgrouped, hrepeat])]
        refine Tree.silent_balanceWith _ _ _ ?_
        split
        · have hheard : f.Heard p := .cut hgrouped hrepeat hquiet hcs
          exact (hheard.close hrepeat hquiet (by omega) p.start).silent hquiet
        · exact hcs
      refine ⟨Tree.reachesChildren_of_silent hformed hsilent, ?_, fun _ => hsilent⟩
      rw [hsilent.horizon, hlength]
      omega

end Family.Heard

/-! ### Taking nodes -/

section Steps

variable {d : BuildPlan} {la : Nat} {b : Builder} {cs : List (Nat × Tree)}
  {r : List (Nat × Tree) × Builder}

theorem takeMarker_children {parentStart : Nat} (hb : b.Calm d la)
    (h : takeMarker d parentStart cs b = .ok r) : r.1 = cs := by
  unfold takeMarker at h
  simp only [hb.record_fresh, if_false] at h
  split at h
  · obtain rfl := Except.ok.inj h
    rfl
  · cases h

/-- Flattening puts a buffer in front of the children, or nothing. -/
theorem takeFlat_hears {parentStart minPos : Nat} (stop : Nat) (hb : b.Calm d la)
    (h : takeFlat d parentStart minPos cs b = .ok r) :
    ∀ c ∈ r.1, c ∈ cs ∨ Heard parentStart stop la c := by
  have hcollected := hb.moveOn (trail_collectF (d := d) minPos b.reader.pos b none [])
  unfold takeFlat at h
  simp only at h
  split at h
  · obtain rfl := Except.ok.inj h
    exact List.forall_mem_cons.2 ⟨Or.inr (heard_packed ..), fun c hc => Or.inl hc⟩
  · split at h
    · rw [takeMarker_children hcollected h]
      exact fun c hc => Or.inl hc
    · obtain rfl := Except.ok.inj h
      exact fun c hc => Or.inl hc

/-- What is asked of a parent: its positions fit into 32 bits, and if it is a repetition long enough
to be cut into leaves, nothing is recorded below it. -/
structure Parent.Spared (d : BuildPlan) (p : Parent) : Prop where
  stop_le : p.stop ≤ maxWord
  ahead_le : p.lookAhead ≤ maxWord
  inRepeat : p.inRepeat = -1 ∨ d.repeatFrom ≤ p.inRepeat
  cut : 0 ≤ p.inRepeat →
    p.stop - p.start < d.maxBuffer ∨ p.lookAhead ≤ p.start + lookAheadMargin

theorem spared_parentAt (ty : NodeType) (depth : Nat) (hsize : 0 ≤ b.reader.record.size)
    (hstop : b.reader.record.stopPos ≤ maxWord) (hahead : b.lookAhead ≤ maxWord)
    (hspares : d.Spares (b.lookAhead, b.reader.record)) : (parentAt d b ty depth).Spared d := by
  refine ⟨hstop, hahead, repeat_cases d _, fun hrepeat => ?_⟩
  simp only [parentAt] at hrepeat ⊢
  split at hrepeat
  · exact hspares ‹_› hsize
  · omega

/-- A builder in the middle of the children of a parent: `seg` is left to be read of them, down to
`below`, and `f` is collected. -/
structure Collecting (d : BuildPlan) (levels : Nat) (p : Parent) (hi : Nat)
    (seg below : List Record) (f : Family) (b : Builder) : Prop where
  reader : b.reader.Holds (seg ++ below)
  forest : d.Forest levels p.start hi seg
  fitted : ∃ ungrouped grouped, f.Fitted p hi ungrouped grouped
  heard : f.Heard p
  calm : b.Calm d p.lookAhead

/-- What taking a node with some fuel puts in front of the children. -/
def HearsNode (d : BuildPlan) (fuel : Nat) : Prop :=
  ∀ {levels parentStart hi la depth : Nat} {inRepeat : Int} {seg below : List Record}
      {cs : List (Nat × Tree)} {b : Builder} {r : List (Nat × Tree) × Builder},
    b.reader.Holds (seg ++ below) → seg ≠ [] → hi ≤ maxWord → la ≤ maxWord →
    d.Forest levels parentStart hi seg → 2 * seg.length ≤ fuel → b.Calm d la →
    takeNodeF d fuel parentStart (4 * below.length) inRepeat depth cs b = .ok r →
      ∀ c ∈ r.1, c ∈ cs ∨ Heard parentStart hi la c

/-- What taking the children of a parent with some fuel collects. -/
def HearsChildren (d : BuildPlan) (fuel : Nat) : Prop :=
  ∀ {levels : Nat} {p : Parent} {hi : Nat} {seg below : List Record} {f : Family} {b : Builder}
      {r : Family × Builder},
    p.Spared d → Collecting d levels p hi seg below f b → 2 * seg.length + 1 ≤ fuel →
    takeChildrenF d fuel p (4 * below.length) f b = .ok r → r.1.Heard p

theorem takeNodeF_hears {fuel : Nat} (hchildren : HearsChildren d fuel) :
    HearsNode d (fuel + 1) := by
  intro levels parentStart hi la depth inRepeat seg below cs b r hb hne hword hahead hseg hfuel
    hcalm h
  cases seg with
  | nil => exact absurd rfl hne
  | cons c rest =>
      obtain ⟨hrecord, hnext⟩ := hb.next
      have hpos := hb.pos_eq
      simp only [List.cons_append, List.length_cons, List.length_append] at hpos hfuel
      rcases takeNodeF_cases h with h | ⟨hsize, ⟨run, -, rfl⟩ | ⟨ty, r', -, htake, rfl⟩⟩
      · rw [takeMarker_children hcalm h]
        exact fun c hc => Or.inl hc
      · exact List.forall_mem_cons.2 ⟨Or.inr (heard_packed ..), fun c hc => Or.inl hc⟩
      · -- a node with its children
        subst hrecord
        obtain ⟨inner, outer, rfl, hid, hsize', hstop, hinner, houter⟩ := hseg.head_node hsize
        have hlo := houter.le
        have hrange := hinner.le
        have hstartPos := Record.startPos_eq (r := b.reader.record) (by omega)
        have hstopPos := Record.stopPos_eq (r := b.reader.record) (by omega)
        rw [List.append_eq, List.append_assoc] at hnext
        simp only [List.length_append] at hfuel hpos
        have hslots : b.reader.pos - b.reader.record.size.toNat = 4 * (outer ++ below).length := by
          rw [List.length_append]
          omega
        rw [hslots] at htake
        obtain ⟨hlower, hspares, hinside⟩ := hcalm.enter hb hsize
        have hspared := spared_parentAt ty depth hsize (by omega) (by omega) hspares
        have hforest : d.Forest levels b.reader.record.startPos b.reader.record.stopPos inner := by
          rw [hstartPos, hstopPos]
          exact hinner
        have hnone : Family.Fitted (parentAt d b ty depth) b.reader.record.stopPos
            { groupStop := b.reader.record.stopPos } [] [] :=
          .start (show b.reader.record.startPos ≤ b.reader.record.stopPos by omega)
        obtain ⟨-, ungrouped, grouped, hfitted⟩ := (take_spec d fuel).2 hnext
          (Nat.le_add_left_of_le hspared.stop_le) hforest (by omega) hspared.inRepeat hnone htake
        have hheard := hchildren hspared
          ⟨hnext, hforest, ⟨_, _, hnone⟩, .whole rfl (by simp), hinside⟩ (by omega) htake
        obtain ⟨hreaches, hhorizon, hsilent⟩ := hheard.node hfitted hspared.stop_le
          hspared.ahead_le
        have hfrom : parentStart ≤ b.reader.record.startPos := by omega
        have hto : b.reader.record.stopPos ≤ hi := by omega
        exact List.forall_mem_cons.2 ⟨Or.inr (heard_node hfrom hto (by omega) hlower hreaches
          hhorizon hsilent), fun c hc => Or.inl hc⟩

/-- A node of the repetition itself may finish a leaf. -/
theorem HearsChildren.pass {fuel levels hi : Nat} {p : Parent} {c : Record}
    {rest below : List Record} {f : Family} {r : Family × Builder}
    (hchildren : HearsChildren d fuel) (hp : p.Spared d)
    (hb : Collecting d levels p hi (c :: rest) below f b) (hfuel : 2 * rest.length + 1 ≤ fuel)
    (hrepeat : 0 ≤ p.inRepeat) (hsize : 0 ≤ c.size)
    (h : takeChildrenF d fuel p (4 * below.length)
      (if c.stopPos + d.maxBuffer ≤ f.groupStop then f.close p c.stopPos else f) b.next = .ok r) :
    r.1.Heard p := by
  obtain ⟨hreader, hforest, ⟨ungrouped, grouped, hfitted⟩, hheard, hcalm⟩ := hb
  obtain ⟨hrecord, hnext⟩ := hreader.next
  obtain ⟨inner, outer, rfl, hid, -, hstop, hinner, houter⟩ := hforest.head_node hsize
  have hlo := houter.le
  have hrange := hinner.le
  have hgroup := hfitted.hi_le
  have hend := hfitted.stop_le
  have hword := hp.stop_le
  have hstopPos : (c.stopPos : Int) = c.stop := Record.stopPos_eq (by omega)
  have hrest : d.Forest levels p.start c.stopPos (inner ++ outer) := by
    rw [hstopPos]
    exact hinner.append houter
  have hfitted' : f.Fitted p c.stopPos ungrouped grouped := hfitted.mono (by omega) (by omega)
  have hcalm' := hcalm.moveOn (trail_next_of_node (by rw [hrecord]; exact hsize))
  split at h
  · -- then the repetition is long, so nothing is recorded
    have hquiet : p.lookAhead ≤ p.start + lookAheadMargin :=
      (hp.cut hrepeat).resolve_left (by omega)
    obtain ⟨leaf, hclosed⟩ := hfitted'.close (by omega) (by omega) (Nat.le_refl _)
    exact hchildren hp ⟨hnext, hrest, ⟨_, _, hclosed⟩,
      hheard.close hrepeat hquiet (by omega) _, hcalm'⟩ hfuel h
  · exact hchildren hp ⟨hnext, hrest, ⟨_, _, hfitted'⟩, hheard, hcalm'⟩ hfuel h

/-- The children after some that were taken. -/
theorem HearsChildren.goOn {fuel levels hi mid : Nat} {p : Parent} {seg below rest : List Record}
    {new : List (Nat × Tree)} {f : Family} {taken : List (Nat × Tree) × Builder}
    {r : Family × Builder} (hchildren : HearsChildren d fuel) (hp : p.Spared d)
    (hb : Collecting d levels p hi seg below f b) (hfuel : 2 * seg.length ≤ fuel)
    (htaken : Taken d levels p.start hi seg below f.children taken rest mid new)
    (hnew : ∀ c ∈ taken.1, c ∈ f.children ∨ Heard p.start p.stop p.lookAhead c)
    (htrail : taken.2.trail <:+ b.trail)
    (h : takeChildrenF d fuel p (4 * below.length) { f with children := taken.1 } taken.2 = .ok r) :
    r.1.Heard p := by
  obtain ⟨ungrouped, grouped, hfitted⟩ := hb.fitted
  have hshorter := htaken.shorter
  have hmid := htaken.forest.le
  have hfits := htaken.fits.le
  have hstart := hfitted.start_le
  have hadded := hfitted.addChildren (by omega) (by omega) htaken.fits
  rw [← htaken.children_eq] at hadded
  exact hchildren hp ⟨htaken.reader, htaken.forest, ⟨_, _, hadded⟩, hb.heard.add hnew,
    hb.calm.moveOn htrail⟩ (by omega) h

theorem takeChildrenF_hears {fuel : Nat} (hnode : HearsNode d fuel)
    (hchildren : HearsChildren d fuel) : HearsChildren d (fuel + 1) := by
  intro levels p hi seg below f b r hp hb hfuel h
  obtain ⟨ungrouped, grouped, hfitted⟩ := hb.fitted
  have hpos := hb.reader.pos_eq
  have hgroup := hfitted.hi_le
  have hend := hfitted.stop_le
  have hword := hp.stop_le
  obtain rfl | ⟨hleft, hstep⟩ := takeChildrenF_cases h
  · exact hb.heard
  · cases seg with
    | nil =>
        rw [List.nil_append] at hpos
        omega
    | cons c rest =>
        obtain ⟨hrecord, -⟩ := hb.reader.next
        rw [hrecord] at hstep
        have hroom : 2 * (c :: rest).length ≤ fuel := by omega
        rcases hstep with ⟨hsame, h⟩ | ⟨hother, taken, htake | htake, h⟩
        · rw [List.length_cons] at hroom
          exact hchildren.pass hp hb (by omega) hsame.1 hsame.2.2 h
        · -- too deep for more branches
          obtain ⟨rest', mid, new, htaken⟩ := takeFlat_spec hb.reader (by simp) (by omega)
            hb.forest htake
          exact hchildren.goOn hp hb hroom htaken (takeFlat_hears p.stop hb.calm htake)
            (trail_takeFlat htake) h
        · have hfirst : ∀ x ∈ (c :: rest).head?, 0 ≤ p.inRepeat → 0 ≤ x.size →
              x.id ≠ p.inRepeat := by
            intro x hx hin hsize heq
            obtain rfl : c = x := by simpa using hx
            exact hother ⟨hin, heq, hsize⟩
          obtain ⟨rest', mid, new, htaken⟩ := (take_spec d fuel).1 hb.reader (by simp) (by omega)
            hb.forest hroom hp.inRepeat hfirst htake
          have hnew := hnode hb.reader (by simp) (by omega) hp.ahead_le hb.forest hroom hb.calm
            htake
          exact hchildren.goOn hp hb hroom htaken
            (fun x hx => (hnew x hx).imp id (·.mono (by omega))) ((trail_take d fuel).1 htake) h

/-- **What taking a node, and taking the children of one, puts into a tree.** -/
theorem take_hears (d : BuildPlan) (fuel : Nat) : HearsNode d fuel ∧ HearsChildren d fuel := by
  induction fuel with
  | zero =>
      constructor
      · intro _ _ _ _ _ _ seg _ _ _ _ _ hne _ _ _ hfuel
        exact absurd (List.eq_nil_of_length_eq_zero (by omega)) hne
      · intro _ _ _ _ _ _ _ _ _ _ hfuel
        omega
  | succ fuel ih => exact ⟨takeNodeF_hears ih.2, takeChildrenF_hears ih.1 ih.2⟩

/-- All nodes down to the first slot. -/
theorem takeAllF_hears (hstart : d.bufferStart = 0) (fuel : Nat) {levels hi stop : Nat}
    {seg : List Record} {cs' : List (Nat × Tree)} (hb : b.reader.Holds seg) (hword : hi ≤ maxWord)
    (hle : hi ≤ stop) (hahead : la ≤ maxWord) (hseg : d.Forest levels d.start hi seg)
    (hcalm : b.Calm d la) (hcs : ∀ c ∈ cs, Heard d.start stop la c)
    (h : takeAllF d fuel cs b = .ok cs') : ∀ c ∈ cs', Heard d.start stop la c := by
  induction fuel generalizing hi seg cs b with
  | zero =>
      obtain rfl := Except.ok.inj h
      exact hcs
  | succ fuel ih =>
      rw [takeAllF, hstart] at h
      split at h
      · obtain rfl := Except.ok.inj h
        exact hcs
      · obtain ⟨taken, htake, h⟩ := bind_ok h
        have hpos := hb.pos_eq
        have hne : seg ≠ [] := by
          rintro rfl
          simp only [List.length_nil] at hpos
          omega
        have hb' : b.reader.Holds (seg ++ []) := by rwa [List.append_nil]
        obtain ⟨rest, mid, new, htaken⟩ := (take_spec d _).1 hb' hne (by omega) hseg (by omega)
          (Or.inl rfl) (by omega) htake
        have hnew := (take_hears d _).1 hb' hne hword hahead hseg (by omega) hcalm htake
        have hreader := htaken.reader
        have hmid := htaken.forest.le
        have hlo := hseg.le
        have hfits := htaken.fits.le
        rw [List.append_nil] at hreader
        refine ih hreader (by omega) (by omega) htaken.forest
          (hcalm.moveOn ((trail_take d _).1 htake)) (fun c hc => ?_) h
        exact (hnew c hc).elim (hcs c) (·.mono hle)

end Steps

end Builder

/-- **Every node of a tree that is built along a calm trail reaches as far as its children.**  The
root has no record of its own, so what was looked at may not end much later than the tree. -/
theorem Tree.reachesChildren_buildFrom {d : BuildPlan} {r : Reader} {seg : List Record}
    {hi la : Nat}
    {t : Tree} (hstart : d.bufferStart = 0) (hlength : d.length = some (hi - d.start))
    (hr : r.Holds seg) (hword : hi ≤ maxWord) (hseg : Nested Record.IsMark d.start hi seg)
    (hcalm : Builder.Calm d la { reader := r }) (hahead : la ≤ maxWord)
    (hend : la ≤ hi + lookAheadMargin) (h : Tree.buildFrom d r = .ok t) : t.ReachesChildren := by
  obtain ⟨ty, cs, -, htake, rfl⟩ := Tree.exists_of_buildFrom h
  have hlo := hseg.le
  have hcs := Builder.takeAllF_hears hstart _ hr hword (Nat.le_refl hi) hahead (hseg.forest d)
    hcalm (by simp) htake
  rw [hlength]
  refine Tree.reachesChildren_makeBranch _ 0 (by simp only [Option.getD_some]; omega)
    (Nat.zero_le maxWord) fun c hc => ⟨(hcs c hc).reaches, fun hbranch => ?_⟩
  have := (hcs c hc).reachesBy hbranch
  simp only [Option.getD_some]
  omega

end IncrementalLR
