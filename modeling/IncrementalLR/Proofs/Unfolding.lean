/-
**A tree shows what its records show.**

The builder makes branches, packs buffers, cuts repetitions into leaves and balances these.  What is
seen of the children that it has collected is always the last part of what the records show, so that
in the end the tree shows what all records show.

A buffer has room for a limited number of nodes.  That they fit is no matter of course, since it is
their text that is counted; `Outline.Roomy` says that they do.

Main definitions:

* `Outline.Roomy` — outlines whose parts fit into buffers;
* `Builder.Family.Shown` — what is seen of the children of a node;
* `Builder.Yields` — what one step takes.

Main results:

* `Builder.shows_spec` — taking a node, and taking the children of one;
* `Tree.buildFrom_shows` — **records that show an outline are built into a tree that shows it**.
-/

import IncrementalLR.Proofs.BalancedViews

set_option relaxedAutoImplicit false
set_option autoImplicit false

namespace IncrementalLR

/-! ### Room in buffers -/

namespace Outline

mutual

/-- Every node has at least as many bytes of text as nodes. -/
def Wide {α : Type} : Outline α → Prop
  | node _ start stop cs => countAll cs + 1 ≤ stop - start ∧ WideAll cs

/-- The same for several nodes. -/
def WideAll {α : Type} : List (Outline α) → Prop
  | [] => True
  | o :: rest => o.Wide ∧ WideAll rest

end

theorem wideAll_append {α : Type} {os os' : List (Outline α)} :
    WideAll (os ++ os') ↔ WideAll os ∧ WideAll os' := by
  induction os with
  | nil => simp [WideAll]
  | cons o os ih => simp [WideAll, ih, and_assoc]

/-- A buffer for at most `room` bytes of text has slots for all nodes in them: there are few nodes
at all, or few bytes of text with at most a node each. -/
def Roomy {α : Type} (room : Nat) (os : List (Outline α)) : Prop :=
  countAll os ≤ 16383 ∨ room ≤ 16383 ∧ WideAll os

namespace Roomy

variable {α : Type} {room : Nat} {os os' : List (Outline α)}

theorem left (h : Roomy room (os ++ os')) : Roomy room os := by
  rcases h with hcount | ⟨hroom, hwide⟩
  · rw [countAll_append] at hcount
    exact Or.inl (by omega)
  · exact Or.inr ⟨hroom, (wideAll_append.1 hwide).1⟩

theorem right (h : Roomy room (os ++ os')) : Roomy room os' := by
  rcases h with hcount | ⟨hroom, hwide⟩
  · rw [countAll_append] at hcount
    exact Or.inl (by omega)
  · exact Or.inr ⟨hroom, (wideAll_append.1 hwide).2⟩

end Roomy

end Outline

namespace BuildPlan

variable {d : BuildPlan} {lo hi : Int} {rs : List Record} {os cs : List (Outline NodeType)}

theorem roomy_of_nodeShown {room : Nat} {ty : NodeType} {r : Record}
    (h : Outline.Roomy room (d.nodeShown ty r cs)) : Outline.Roomy room cs := by
  unfold nodeShown at h
  split at h
  · exact h
  · rcases h with hcount | ⟨hroom, hwide⟩
    · simp only [Outline.countAll, Outline.count] at hcount
      exact Or.inl (by omega)
    · exact Or.inr ⟨hroom, hwide.1.2⟩

/-- Nodes that have text each are no more than the text that they lie in. -/
theorem Packs.count_le (h : d.Packs lo hi rs os) (hlo : d.start ≤ lo)
    (hwide : Outline.WideAll os) : Outline.countAll os ≤ hi - lo := by
  induction h with
  | nil hle =>
      simp only [Outline.countAll]
      omega
  | drop _ _ ih => exact ih hlo hwide
  | @node lo hi r inner outer cs os _ _ _ _ hstop hinner houter _ ih =>
      have hle := houter.le
      have hrange := hinner.le
      obtain ⟨hos, ⟨hnode, -⟩, -⟩ := Outline.wideAll_append.1 hwide
      have hrest := ih hlo hos
      have hplace : (d.place r.stop : Int) - d.place r.start = r.stop - r.start := by
        unfold place
        omega
      rw [Outline.countAll_append]
      simp only [Outline.countAll, Outline.count]
      omega

/-- What is packed into a buffer has slots there. -/
theorem Packs.count_le_of_roomy (h : d.Packs lo hi rs os) (hlo : d.start ≤ lo)
    (hroomy : Outline.Roomy d.maxBuffer os) (hlength : hi - lo ≤ d.maxBuffer) :
    Outline.countAll os ≤ 16383 := by
  rcases hroomy with hcount | ⟨hroom, hwide⟩
  · exact hcount
  · have hle := h.count_le hlo hwide
    omega

end BuildPlan

namespace Builder

variable {d : BuildPlan}

/-! ### Families -/

/-- What is seen of the children that a family has collected. -/
structure Family.Shown (d : BuildPlan) (p : Parent) (f : Family) (os : List (Outline NodeType)) :
    Prop where
  drawn : Tree.DrawnAllFrom d.set f.children
  visible_eq : Tree.visibleAll f.children (d.place p.start) = os

/-- The type of a parent belongs to the set, and is anonymous if it is that of a repetition. -/
structure Parent.Typed (d : BuildPlan) (p : Parent) : Prop where
  get_eq : d.set.get? p.type.id = some p.type
  anonymous : 0 ≤ p.inRepeat → p.type.isAnonymous = true

namespace Family.Shown

variable {p : Parent} {f : Family} {hi : Nat} {ungrouped grouped : List (Nat × Tree)}
  {os : List (Outline NodeType)}

/-- Finishing the leaf of a repetition cannot be seen. -/
theorem close {start : Nat} (h : f.Shown d p os) (hfitted : f.Fitted p hi ungrouped grouped)
    (hp : p.Typed d) (hrepeat : 0 ≤ p.inRepeat) (hword : p.stop - p.start ≤ maxWord)
    (hstart : p.start ≤ start) (hle : start ≤ hi) : (f.close p start).Shown d p os := by
  have hhi := hfitted.hi_le
  have hstop := hfitted.stop_le
  obtain ⟨hdrawn, hvisible⟩ := h
  rw [hfitted.children_eq] at hdrawn hvisible
  obtain ⟨hungrouped, hgrouped⟩ := Tree.drawnAllFrom_append.1 hdrawn
  rw [hfitted.close_eq hword hle]
  refine ⟨⟨⟨hp.get_eq, Tree.drawnAllFrom_map (fun n => Tree.word (n + p.start - start)) hungrouped⟩,
    hgrouped⟩, ?_⟩
  have hmoved := Tree.visibleAll_move (fun n => Tree.word (n + p.start - start))
    (d.place p.start) (d.place p.start + (start - p.start)) hfitted.fits_ungrouped
    (by
      intro pos hlo hpos
      rw [Tree.word_of_le (by omega)]
      omega)
  rw [← hvisible, Tree.visibleAll, makeBranch, Tree.make, Tree.visible,
    if_pos (hp.anonymous hrepeat), hmoved, Tree.visibleAll_append]

/-- **The node of a family shows the node over what its children show.** -/
theorem node {r : Record} (h : f.Shown d p os) (hfitted : f.Fitted p p.start ungrouped grouped)
    (hp : p.Typed d) (hword : p.stop - p.start ≤ maxWord) (hdstart : d.start ≤ p.start)
    (hstart : r.start = p.start) (hstop : r.stop = p.stop) :
    (f.node p).visible (d.place p.start) = d.nodeShown p.type r os ∧
      (f.node p).DrawnFrom d.set := by
  have hle := hfitted.hi_le
  have hle' := hfitted.stop_le
  unfold Family.node
  split
  · -- a repetition with finished leaves is balanced
    rename_i hrepeat
    rw [Bool.and_eq_true, decide_eq_true_eq] at hrepeat
    have hanonymous := hp.anonymous hrepeat.1
    rw [BuildPlan.nodeShown, if_pos hanonymous]
    have hunfolds := unfolds_makeRepeat (P := Buffer.Sound) hp.get_eq hanonymous p.contextHash
    split
    · obtain ⟨leaf, hclosed⟩ := hfitted.close hword (Nat.le_refl _) (Nat.le_refl _)
      obtain ⟨hdrawn, hvisible⟩ :=
        h.close hfitted hp hrepeat.1 hword (Nat.le_refl _) (Nat.le_refl _)
      have hfits := hclosed.fits
      rw [Nat.sub_self] at hfits
      rw [← hvisible]
      exact Tree.visible_balanceWith (makes_makeRepeat _ _) hunfolds hunfolds hp.get_eq hword hfits
        hdrawn _
    · have hfits := hfitted.fits
      rw [Nat.sub_self] at hfits
      rw [← h.visible_eq]
      exact Tree.visible_balanceWith (makes_makeRepeat _ _) hunfolds hunfolds hp.get_eq hword hfits
        h.drawn _
  · refine ⟨?_, hp.get_eq, h.drawn⟩
    have hlength : min (p.stop - p.start) maxWord = p.stop - p.start := Nat.min_eq_left hword
    have hplace : d.place p.start + (p.stop - p.start) = d.place p.stop := by
      unfold BuildPlan.place
      omega
    rw [makeBranch, Tree.make, Tree.visible, h.visible_eq, BuildPlan.nodeShown, hstart, hstop,
      hlength, hplace]

end Family.Shown

/-! ### Steps -/

/-- What one step takes: some of the newest records between the start of a parent and a position,
and the children for them in front of those before.  These show the last part of what the records
show. -/
structure Yields (d : BuildPlan) (inRepeat : Int) (depth parentStart hi : Nat)
    (seg below : List Record) (cs : List (Nat × Tree)) (os : List (Outline NodeType))
    (r : List (Nat × Tree) × Builder) (rest : List Record) (mid : Nat) (new : List (Nat × Tree))
    (left : List (Outline NodeType)) : Prop where
  shorter : rest.length < seg.length
  reader : r.2.reader.Holds (rest ++ below)
  shows : d.Shows inRepeat depth parentStart mid rest left
  children_eq : r.1 = new ++ cs
  fits : Tree.Fits Buffer.Sound (mid - parentStart) (hi - parentStart) new
  drawn : Tree.DrawnAllFrom d.set new
  shown_eq : os = left ++ Tree.visibleAll new (d.place parentStart)

section Take

variable {parentStart hi depth : Nat} {inRepeat : Int} {seg below : List Record}
  {cs : List (Nat × Tree)} {os : List (Outline NodeType)} {b : Builder}

theorem place_add {pos : Int} (hdstart : d.start ≤ parentStart) (hpos : parentStart ≤ pos) :
    d.place parentStart + (pos.toNat - parentStart) = d.place pos := by
  unfold BuildPlan.place
  omega

/-- A mark or an older tree is taken on its own. -/
theorem takeMarker_yields {c : Record} {rest : List Record}
    (hb : b.reader.Holds (c :: rest ++ below)) (hdstart : d.start ≤ parentStart)
    (hword : hi ≤ d.start + maxWord) (hsize : c.size < 0)
    (hseg : d.Shows inRepeat depth parentStart hi (c :: rest) os) :
    ∃ r rest' mid new left, takeMarker d parentStart cs b = .ok r ∧
      Yields d inRepeat depth parentStart hi (c :: rest) below cs os r rest' mid new left := by
  obtain ⟨hrecord, hnext⟩ := hb.next
  unfold takeMarker
  simp only [hrecord]
  cases hseg with
  | note hnote hrest =>
      have hreuse : c.size ≠ Record.reuseSize := by
        rcases hnote with heq | heq
        · rw [heq]; decide
        · rw [heq]; decide
      have hmark : (decide (c.size = Record.contextSize) ||
          decide (c.size = Record.lookAheadSize)) = true := by
        simpa [Record.IsNote] using hnote
      rw [if_neg hreuse, if_pos hmark]
      refine ⟨_, rest, hi, [], os, rfl, Nat.lt_succ_self _, ?_, hrest, rfl, .nil (Nat.le_refl _),
        trivial, by simp [Tree.visibleAll]⟩
      rw [reader_mark]
      exact hnext
  | @reuse _ _ _ _ _ _ left t hreuse hid ht hformed hdrawn hstop hrest =>
      have hle := hrest.le
      have hpos : (c.startPos : Int) = c.start := Record.startPos_eq (by omega)
      have hplace : Tree.word (c.startPos - parentStart) = c.startPos - parentStart :=
        Tree.word_of_le (by omega)
      rw [if_pos hreuse, if_pos hid, ht]
      refine ⟨_, rest, c.startPos, [(c.startPos - parentStart, t)], left, rfl,
        Nat.lt_succ_self _, hnext, ?_, by rw [hplace]; rfl, ?_, ⟨hdrawn, trivial⟩, ?_⟩
      · rw [hpos]
        exact hrest
      · refine .cons (Nat.le_refl _) (hformed.of_buffers fun _ _ hb _ => hb) (.nil ?_)
        simp only
        omega
      · rw [Tree.visibleAll, Tree.visibleAll, List.append_nil, Record.startPos,
          place_add hdstart (by omega)]
  | node _ _ hnode => omega

/-- A run is taken as one buffer. -/
theorem pack_yields (hd : d.Regular) (cs : List (Nat × Tree)) {c : Record} {rest : List Record}
    {run : Run}
    (hb : b.reader.Holds (c :: rest ++ below)) (hdstart : d.start ≤ parentStart)
    (hword : hi ≤ d.start + maxWord) (hstop : c.stop ≤ hi)
    (hseg : d.Shows inRepeat depth parentStart c.stop (c :: rest) os)
    (hroomy : Outline.Roomy d.maxBuffer os) (hrepeat : inRepeat = -1 ∨ d.repeatFrom ≤ inRepeat)
    (hfirst : c.id ≠ inRepeat) (h : findRun d b.reader (4 * below.length) inRepeat = some run) :
    ∃ rest' mid new left, Yields d inRepeat depth parentStart hi (c :: rest) below cs os
      ((Tree.word (run.start - parentStart), (pack d b run c.stopPos).2) :: cs,
        (pack d b run c.stopPos).1) rest' mid new left := by
  have hle := hseg.le
  have hpos : (c.stopPos : Int) = c.stop := Record.stopPos_eq (by omega)
  have hrecord := (Reader.Holds.next hb).1
  rw [← hpos] at hseg
  obtain ⟨taken, rest', mid, packed, left, hne, hshows⟩ :=
    findRun_shows hd (by omega) hrepeat hb hseg (by simpa using hfirst) h
  have hmax := hd.maxBuffer_le
  have hmid := hshows.start_eq hne
  have hfloor := hshows.start_le hne
  rw [hrecord] at hfloor
  have hlo := hshows.shows.le
  have hend := hshows.packs.le
  have hshown := hshows.shown_eq
  rw [hshown] at hroomy
  have hcount := hshows.packs.count_le_of_roomy (by omega) hroomy.right (by omega)
  obtain ⟨buffer, hbuffer, hformed, hset, hlength, houtlines, hreader⟩ :=
    pack_shows hb hshows hne (by omega) (by omega) hcount
  have hplace : Tree.word (run.start - parentStart) = run.start - parentStart :=
    Tree.word_of_le (by omega)
  refine ⟨rest', run.start, [(run.start - parentStart, .packed buffer)], left, ?_, hreader, ?_, ?_,
    ?_, ⟨⟨hset, hformed⟩, trivial⟩, ?_⟩
  · have hcount := congrArg List.length hshows.split
    have hpos := List.length_pos_iff.2 hne
    rw [List.length_append] at hcount
    omega
  · rw [hmid]
    exact hshows.shows
  · rw [hbuffer, hplace]
    rfl
  · refine .cons (Nat.le_refl _) (fun _ => hformed) (.nil ?_)
    simp only [Tree.length, hlength]
    omega
  · rw [hshown, Tree.visibleAll, Tree.visibleAll, List.append_nil, Tree.visible, ← houtlines]
    congr 2
    unfold BuildPlan.place
    omega

theorem typeOf_eq_ok {c : Record} {ty : NodeType} (hid : 0 ≤ c.id)
    (hty : d.set.get? c.id.toNat = some ty) : d.typeOf c.id = .ok ty := by
  unfold BuildPlan.typeOf
  rw [if_pos hid, hty]

/-- What taking a node with some fuel ensures. -/
def ShowsNode (d : BuildPlan) (fuel : Nat) : Prop :=
  ∀ (cs : List (Nat × Tree)) {parentStart hi depth : Nat} {inRepeat : Int}
      {seg below : List Record} {os : List (Outline NodeType)} {b : Builder},
    b.reader.Holds (seg ++ below) → seg ≠ [] → d.start ≤ parentStart → hi ≤ d.start + maxWord →
    d.Shows inRepeat depth parentStart hi seg os → Outline.Roomy d.maxBuffer os →
    2 * seg.length ≤ fuel → inRepeat = -1 ∨ d.repeatFrom ≤ inRepeat →
    (∀ c ∈ seg.head?, 0 ≤ inRepeat → 0 ≤ c.size → c.id ≠ inRepeat) →
      ∃ r rest mid new left,
        takeNodeF d fuel parentStart (4 * below.length) inRepeat depth cs b = .ok r ∧
          Yields d inRepeat depth parentStart hi seg below cs os r rest mid new left

/-- What taking the children of a parent with some fuel ensures. -/
def ShowsChildren (d : BuildPlan) (fuel : Nat) : Prop :=
  ∀ (p : Parent) (hi : Nat) (f : Family) (b : Builder) (shown : List (Outline NodeType))
      {seg below : List Record} {ungrouped grouped : List (Nat × Tree)}
      {os : List (Outline NodeType)},
    b.reader.Holds (seg ++ below) → d.start ≤ p.start → p.stop ≤ d.start + maxWord →
    d.Shows p.inRepeat (p.depth + 1) p.start hi seg os → Outline.Roomy d.maxBuffer os →
    2 * seg.length + 1 ≤ fuel → p.inRepeat = -1 ∨ d.repeatFrom ≤ p.inRepeat →
    p.depth ≤ cutoffDepth → p.Typed d → f.Fitted p hi ungrouped grouped → f.Shown d p shown →
      ∃ r ungrouped grouped, takeChildrenF d fuel p (4 * below.length) f b = .ok r ∧
        r.2.reader.Holds below ∧ r.1.Fitted p p.start ungrouped grouped ∧
        r.1.Shown d p (os ++ shown)

/-- A node is taken with its children. -/
theorem node_yields (cs : List (Nat × Tree)) {c : Record} {inner outer : List Record} {t : Tree}
    {b' : Builder} {left shown : List (Outline NodeType)} (hb : b'.reader.Holds (outer ++ below))
    (hdstart : d.start ≤ parentStart) (hword : hi ≤ d.start + maxWord) (hstop : c.stop ≤ hi)
    (hrange : c.start ≤ c.stop) (houter : d.Shows inRepeat depth parentStart c.start outer left)
    (hformed : t.Formed Buffer.Sound) (hlength : t.length = c.stopPos - c.startPos)
    (hdrawn : t.DrawnFrom d.set) (hshown : t.visible (d.place c.start) = shown) :
    Yields d inRepeat depth parentStart hi (c :: (inner ++ outer)) below cs (left ++ shown)
      ((Tree.word (c.startPos - parentStart), t) :: cs, b') outer c.startPos
      [(c.startPos - parentStart, t)] left := by
  have hle := houter.le
  have hpos : (c.startPos : Int) = c.start := Record.startPos_eq (by omega)
  have hpos' : (c.stopPos : Int) = c.stop := Record.stopPos_eq (by omega)
  have hplace : Tree.word (c.startPos - parentStart) = c.startPos - parentStart :=
    Tree.word_of_le (by omega)
  refine ⟨?_, hb, ?_, by rw [hplace]; rfl, ?_, ⟨hdrawn, trivial⟩, ?_⟩
  · simp only [List.length_cons, List.length_append]
    omega
  · rw [hpos]
    exact houter
  · refine .cons (Nat.le_refl _) hformed (.nil ?_)
    simp only [hlength]
    omega
  · rw [Tree.visibleAll, Tree.visibleAll, List.append_nil, Record.startPos,
      place_add hdstart (by omega), hshown]

theorem takeNodeF_shows (hd : d.Regular) {fuel : Nat} (hchildren : ShowsChildren d fuel) :
    ShowsNode d (fuel + 1) := by
  intro cs parentStart hi depth inRepeat seg below os b hb hne hdstart hword hseg hroomy hfuel
    hrepeat hfirst
  cases seg with
  | nil => exact absurd rfl hne
  | cons c rest =>
      obtain ⟨hrecord, hnext⟩ := hb.next
      have hpos := hb.pos_eq
      simp only [List.cons_append, List.length_cons, List.length_append] at hpos hfuel
      rw [takeNodeF]
      simp only [hrecord]
      by_cases hsize : c.size < 0
      · rw [if_pos hsize]
        exact takeMarker_yields hb hdstart hword hsize hseg
      · obtain ⟨inner, outer, shown, left, ty, rfl, rfl, hid, hty, hcount, hstop, hdepth, hinner,
          houter⟩ := hseg.head_node (by omega)
        have hlo := houter.le
        have hrange := hinner.le
        have hstartPos : (c.startPos : Int) = c.start := Record.startPos_eq (by omega)
        have hstopPos : (c.stopPos : Int) = c.stop := Record.stopPos_eq (by omega)
        have hid' : c.id ≠ inRepeat := by
          rcases hrepeat with rfl | hle
          · omega
          · intro heq
            exact hfirst c rfl (by omega) (by omega) heq
        rw [if_neg hid'] at hinner
        simp only [List.length_append] at hpos hfuel
        rw [if_neg hsize, if_neg (by simp only [Bool.or_eq_true, decide_eq_true_eq]; omega),
          typeOf_eq_ok hid hty]
        simp only [bind, Except.bind]
        cases hrun : (if c.stopPos - c.startPos ≤ d.maxBuffer then
            findRun d b.reader (4 * below.length) inRepeat else none) with
        | some run =>
            -- a run of nodes that fit into one buffer
            have hfound : findRun d b.reader (4 * below.length) inRepeat = some run := by
              split at hrun
              · exact hrun
              · cases hrun
            obtain ⟨rest', mid, new, left', hyields⟩ := pack_yields hd cs hb hdstart hword
              hstop (.node hid hty hcount (Int.le_refl _) hdepth (by rwa [if_neg hid']) houter)
              hroomy hrepeat hid' hfound
            exact ⟨_, rest', mid, new, left', rfl, hyields⟩
        | none =>
            -- a node with its children
            let p : Parent :=
              { type := ty, start := c.startPos, stop := c.stopPos, inRepeat := d.repeatOf c.id,
                lookAhead := b.lookAhead, contextHash := b.contextHash, depth }
            have hslots : b.reader.pos - c.size.toNat = 4 * (outer ++ below).length := by
              simp only [List.length_append]
              omega
            have htyped : p.Typed d := by
              refine ⟨?_, fun hin => ?_⟩
              · show d.set.get? ty.id = some ty
                rw [hd.id_eq hty, hty]
              · refine (hd.isAnonymous hid hty).2 ?_
                have hin : 0 ≤ d.repeatOf c.id := hin
                unfold BuildPlan.repeatOf at hin
                split at hin
                · assumption
                · omega
            rw [List.append_eq, List.append_assoc] at hnext
            obtain ⟨r, ungrouped, grouped, htake, hreader, hfitted, hshown⟩ := hchildren p
              c.stopPos { groupStop := p.stop } b.next [] hnext
              (by simp only [p]; omega) (by simp only [p]; omega)
              (by simp only [p, hstartPos, hstopPos]; exact hinner)
              (BuildPlan.roomy_of_nodeShown hroomy.right) (by omega) (repeat_cases d c) hdepth
              htyped (.start (by simp only [p]; omega)) ⟨trivial, rfl⟩
            rw [List.append_nil] at hshown
            obtain ⟨hformed, hlength⟩ := hfitted.node (by simp only [p]; omega)
            obtain ⟨hvisible, hdrawn⟩ := hshown.node (r := c) hfitted htyped
              (by simp only [p]; omega) (by simp only [p]; omega) hstartPos.symm hstopPos.symm
            have htake' : takeChildrenF d fuel p (b.reader.pos - c.size.toNat)
                { groupStop := p.stop } b.next = .ok r := by
              rw [hslots]
              exact htake
            refine ⟨_, outer, c.startPos, _, left, ?_, node_yields cs hreader hdstart hword
              hstop hrange houter hformed hlength hdrawn ?_⟩
            · simp only [p, BuildPlan.repeatOf] at htake'
              simp only [htake']
              rfl
            · rw [← hstartPos]
              exact hvisible

theorem takeChildrenF_shows (hd : d.Regular) {fuel : Nat} (hnode : ShowsNode d fuel)
    (hchildren : ShowsChildren d fuel) : ShowsChildren d (fuel + 1) := by
  intro p hi f b shown seg below ungrouped grouped os hb hdstart hword hseg hroomy hfuel hrepeat
    hdepth htyped hfitted hshown
  have hpos := hb.pos_eq
  have hstart := hseg.le
  have hstop := hfitted.stop_le
  have hhi := hfitted.hi_le
  rw [takeChildrenF]
  cases seg with
  | nil =>
      rw [List.nil_append] at hb hpos
      cases hseg
      simp only [hpos, Nat.le_refl, if_true]
      exact ⟨_, _, _, rfl, hb, hfitted.mono (Nat.le_refl _) hfitted.start_le, hshown⟩
  | cons c rest =>
      rw [List.cons_append] at hb hpos
      obtain ⟨hrecord, hnext⟩ := hb.next
      simp only [List.length_cons, List.length_append] at hpos hfuel
      simp only [hrecord]
      rw [if_neg (by omega)]
      by_cases hsame : (decide (0 ≤ p.inRepeat) && decide (c.id = p.inRepeat) &&
          decide (0 ≤ c.size)) = true
      · -- a node of the repetition itself may finish a leaf
        rw [if_pos hsame]
        simp only [Bool.and_eq_true, decide_eq_true_eq] at hsame
        obtain ⟨⟨hin, hid⟩, hsize⟩ := hsame
        rw [← hid] at hseg
        obtain ⟨-, hrest, hend⟩ := hseg.lookThrough hd hsize (by omega)
        have hle := hrest.le
        have hstopPos : (c.stopPos : Int) = c.stop := Record.stopPos_eq (by omega)
        rw [hid, ← hstopPos] at hrest
        have hfitted' : f.Fitted p c.stopPos ungrouped grouped :=
          hfitted.mono (by omega) (by omega)
        split
        · obtain ⟨leaf, hclosed⟩ := hfitted'.close (by omega) (by omega) (Nat.le_refl _)
          exact hchildren _ _ _ _ _ hnext hdstart hword hrest hroomy (by omega) hrepeat hdepth htyped hclosed
            (hshown.close hfitted' htyped hin (by omega) (by omega) (Nat.le_refl _))
        · exact hchildren _ _ _ _ _ hnext hdstart hword hrest hroomy (by omega) hrepeat hdepth htyped hfitted'
            hshown
      · rw [if_neg hsame, if_neg (Nat.not_lt.2 hdepth)]
        have hfirst : ∀ x ∈ (c :: rest).head?, 0 ≤ p.inRepeat → 0 ≤ x.size →
            x.id ≠ p.inRepeat := by
          intro x hx hin hsize heq
          obtain rfl : c = x := by simpa using hx
          exact hsame (by simp [hin, hsize, heq])
        obtain ⟨taken, rest', mid, new, left, htake, hyields⟩ := hnode f.children hb
          (by simp) hdstart (by omega) hseg hroomy (by rw [List.length_cons]; omega) hrepeat hfirst
        have hshorter := hyields.shorter
        have hmid := hyields.shows.le
        have hfits := hyields.fits.le
        have hle := hfitted.start_le
        rw [hyields.shown_eq] at hroomy
        rw [List.length_cons] at hshorter
        have hadded : Family.Shown d p { f with children := new ++ f.children }
            (Tree.visibleAll new (d.place p.start) ++ shown) := by
          refine ⟨Tree.drawnAllFrom_append.2 ⟨hyields.drawn, hshown.drawn⟩, ?_⟩
          rw [Tree.visibleAll_append, hshown.visible_eq]
        obtain ⟨r, ungrouped', grouped', hrest, hreader, hfitted', hshown'⟩ :=
          hchildren _ _ _ _ _ hyields.reader hdstart hword hyields.shows hroomy.left (by omega) hrepeat hdepth
            htyped (hfitted.addChildren (by omega) (by omega) hyields.fits) hadded
        refine ⟨r, ungrouped', grouped', ?_, hreader, hfitted', ?_⟩
        · rw [htake]
          simp only [bind, Except.bind]
          rw [hyields.children_eq]
          exact hrest
        · rw [hyields.shown_eq, List.append_assoc]
          exact hshown'

/-- **Taking a node, and taking the children of one.** -/
theorem shows_spec (hd : d.Regular) (fuel : Nat) : ShowsNode d fuel ∧ ShowsChildren d fuel := by
  induction fuel with
  | zero =>
      constructor
      · intro _ _ _ _ _ seg _ _ _ _ hne _ _ _ _ hfuel
        exact absurd (List.eq_nil_of_length_eq_zero (by omega)) hne
      · intro _ _ _ _ _ _ _ _ _ _ _ _ _ _ _ hfuel
        omega
  | succ fuel ih => exact ⟨takeNodeF_shows hd ih.2, takeChildrenF_shows hd ih.1 ih.2⟩

end Take

/-- All nodes down to the first slot. -/
theorem takeAllF_shows (hd : d.Regular) (fuel : Nat) {hi len : Nat} {seg : List Record}
    {cs : List (Nat × Tree)} {os : List (Outline NodeType)} {b : Builder}
    (hb : b.reader.Holds seg) (hfuel : seg.length < fuel) (hword : hi ≤ d.start + maxWord)
    (hseg : d.Shows (-1) 0 d.start hi seg os) (hroomy : Outline.Roomy d.maxBuffer os)
    (hcs : Tree.Fits Buffer.Sound (hi - d.start) len cs) (hdrawn : Tree.DrawnAllFrom d.set cs) :
    ∃ cs', takeAllF d fuel cs b = .ok cs' ∧ Tree.Fits Buffer.Sound 0 len cs' ∧
      Tree.DrawnAllFrom d.set cs' ∧
      Tree.visibleAll cs' 0 = os ++ Tree.visibleAll cs 0 := by
  induction fuel generalizing hi seg cs os b with
  | zero => omega
  | succ fuel ih =>
      have hpos := hb.pos_eq
      rw [takeAllF, hd.bufferStart]
      by_cases hnil : seg = []
      · subst hnil
        cases hseg
        rw [if_pos (by rw [hpos]; exact Nat.le_refl _)]
        exact ⟨cs, rfl, hcs.mono_left (Nat.zero_le _), hdrawn, rfl⟩
      · have hlength := List.length_pos_iff.2 hnil
        rw [if_neg (by omega)]
        have hb' : b.reader.Holds (seg ++ []) := by rwa [List.append_nil]
        obtain ⟨r, rest, mid, new, left, htake, hyields⟩ :=
          (shows_spec hd (2 * b.reader.pos + 2)).1 cs hb' hnil (Nat.le_refl _) hword hseg
            hroomy (by omega) (Or.inl rfl) (by omega)
        have hreader := hyields.reader
        have hmid := hyields.shows.le
        have hle := hseg.le
        have hfits := hyields.fits.le
        have hshorter := hyields.shorter
        have hzero : d.place d.start = 0 := by
          unfold BuildPlan.place
          omega
        rw [List.append_nil] at hreader
        rw [hyields.shown_eq] at hroomy
        obtain ⟨cs', hrest, hfits', hdrawn', hvisible⟩ := ih hreader (by omega)
          (by omega) hyields.shows hroomy.left (hyields.fits.append hcs)
          (Tree.drawnAllFrom_append.2 ⟨hyields.drawn, hdrawn⟩)
        refine ⟨cs', ?_, hfits', hdrawn', ?_⟩
        · have htake' : takeNodeF d (2 * b.reader.pos + 2) d.start 0 (-1) 0 cs b = .ok r := htake
          rw [htake']
          simp only [bind, Except.bind]
          rw [hyields.children_eq]
          exact hrest
        · rw [hvisible, hyields.shown_eq, hzero, Tree.visibleAll_append, List.append_assoc]

end Builder

/-- **Records that show an outline are built into a tree that shows it.** -/
theorem Tree.buildFrom_shows {d : BuildPlan} (hd : d.Regular) {r : Reader} {seg : List Record}
    {hi : Nat} {os : List (Outline NodeType)} {ty : NodeType} (htop : d.set.get? d.top = some ty)
    (hr : r.Holds seg) (hword : hi ≤ d.start + maxWord) (hseg : d.Shows (-1) 0 d.start hi seg os)
    (hroomy : Outline.Roomy d.maxBuffer os) :
    ∃ cs, Tree.buildFrom d r = .ok (.make ty cs (d.length.getD (rootLength cs)) []) ∧
      Tree.Fits Buffer.Sound 0 (hi - d.start) cs ∧ Tree.DrawnAllFrom d.set cs ∧
      Tree.visibleAll cs 0 = os := by
  have hpos := hr.pos_eq
  obtain ⟨cs, htake, hfits, hdrawn, hvisible⟩ := Builder.takeAllF_shows (b := { reader := r })
    hd (r.pos + 1) hr (by omega) hword hseg hroomy (.nil (Nat.le_refl _)) trivial
  refine ⟨cs, ?_, hfits, hdrawn, by simpa [Tree.visibleAll] using hvisible⟩
  unfold Tree.buildFrom
  rw [htop]
  simp only [bind, Except.bind, htake]
  rfl

end IncrementalLR
