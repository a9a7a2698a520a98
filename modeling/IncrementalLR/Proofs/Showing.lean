/-
**What records show.**

Records describe a forest of nodes, and trees of older parses that stand in it; what is to be seen
of them is an outline, in which nodes of repetitions give way to what is below them.
`BuildPlan.Shows` says which outline records show, with all that the builder asks of them, and
`BuildPlan.Packs` says the same of a run of records that is packed into a buffer.

The builder goes through a run twice, once to see how far it goes and once to copy it.  Both walks
are followed here: a run that is found packs what its records show, and the copy spells it.

Main definitions:

* `BuildPlan.Regular` — plans whose repetitions are anonymous;
* `BuildPlan.Shows`, `BuildPlan.Packs` — what records show;
* `Builder.Run.Shows` — a run as a part of the records at a reader.

Main results:

* `BuildPlan.Shows.packs` — what records show is what is packed of them;
* `Builder.findRun_shows` — what a run that was found shows;
* `Builder.pack_shows` — the buffer of a run shows the same.
-/

import IncrementalLR.Proofs.Packing
import IncrementalLR.Proofs.Visible

set_option relaxedAutoImplicit false
set_option autoImplicit false

namespace IncrementalLR

mutual

/-- All branches of a tree have types of a set, and all buffers belong to it and are well formed. -/
def Tree.DrawnFrom (set : NodeSet) : Tree → Prop
  | .branch _ ty cs _ _ => set.get? ty.id = some ty ∧ DrawnAllFrom set cs
  | .packed b => b.set = set ∧ b.WellFormed

/-- The same for all children. -/
def Tree.DrawnAllFrom (set : NodeSet) : List (Nat × Tree) → Prop
  | [] => True
  | (_, t) :: rest => t.DrawnFrom set ∧ DrawnAllFrom set rest

end

namespace BuildPlan

/-- The types from the first repetition on, and no others, are anonymous; every type stands at the
place of its id, and ids and the text of a buffer fit into 16 bits. -/
structure Regular (d : BuildPlan) : Prop where
  bufferStart : d.bufferStart = 0
  maxBuffer_le : d.maxBuffer ≤ 65535
  size_le : d.set.size ≤ 65536
  id_eq : ∀ {id : Nat} {ty : NodeType}, d.set.get? id = some ty → ty.id = id
  anonymous_iff : ∀ {id : Nat} {ty : NodeType}, d.set.get? id = some ty →
    (ty.isAnonymous = true ↔ d.repeatFrom ≤ id)

/-- The id of a type if it is the type of a repetition, else -1. -/
def repeatOf (d : BuildPlan) (id : Int) : Int := if d.repeatFrom ≤ id then id else -1

/-- A position of a record counted from the start of the tree. -/
def place (d : BuildPlan) (pos : Int) : Nat := (pos - d.start).toNat

/-- What a node with the given children shows. -/
def nodeShown (d : BuildPlan) (ty : NodeType) (r : Record) (cs : List (Outline NodeType)) :
    List (Outline NodeType) :=
  if ty.isAnonymous then cs else [.node ty (d.place r.start) (d.place r.stop) cs]

/-- Records between two positions, newest first, and what they show.  They stand among the children
of a node of repetition `inRepeat` (else -1) and `depth` levels deep; a node that continues the
repetition adds no level. -/
inductive Shows (d : BuildPlan) :
    Int → Nat → Int → Int → List Record → List (Outline NodeType) → Prop
  | nil {inRepeat : Int} {depth : Nat} {lo hi : Int} : lo ≤ hi → Shows d inRepeat depth lo hi [] []
  | note {inRepeat : Int} {depth : Nat} {lo hi : Int} {r : Record} {rs : List Record}
      {os : List (Outline NodeType)} : r.IsNote → Shows d inRepeat depth lo hi rs os →
      Shows d inRepeat depth lo hi (r :: rs) os
  | reuse {inRepeat : Int} {depth : Nat} {lo hi : Int} {r : Record} {rs : List Record}
      {os : List (Outline NodeType)} {t : Tree} : r.size = Record.reuseSize → 0 ≤ r.id →
      d.reused[r.id.toNat]? = some t → t.WellFormed → t.DrawnFrom d.set → r.start + t.length ≤ hi →
      Shows d inRepeat depth lo r.start rs os →
      Shows d inRepeat depth lo hi (r :: rs) (os ++ t.visible (d.place r.start))
  | node {inRepeat : Int} {depth : Nat} {lo hi : Int} {r : Record} {inner outer : List Record}
      {cs os : List (Outline NodeType)} {ty : NodeType} : 0 ≤ r.id →
      d.set.get? r.id.toNat = some ty → r.size = 4 * (inner.length + 1) → r.stop ≤ hi →
      depth ≤ cutoffDepth →
      Shows d (d.repeatOf r.id) (if r.id = inRepeat then depth else depth + 1) r.start r.stop inner
        cs → Shows d inRepeat depth lo r.start outer os →
      Shows d inRepeat depth lo hi (r :: (inner ++ outer)) (os ++ d.nodeShown ty r cs)

namespace Shows

variable {d : BuildPlan} {inRepeat : Int} {depth : Nat} {lo mid hi : Int} {r : Record}
  {rs rest : List Record} {os : List (Outline NodeType)}

theorem le (h : d.Shows inRepeat depth lo hi rs os) : lo ≤ hi := by
  induction h with
  | nil hle => exact hle
  | note _ _ ih => exact ih
  | reuse _ _ _ _ _ hstop _ ih => omega
  | node _ _ _ _ _ _ _ ihInner ih => omega

theorem mono {hi' : Int} (h : d.Shows inRepeat depth lo hi rs os) (hhi : hi ≤ hi') :
    d.Shows inRepeat depth lo hi' rs os := by
  induction h with
  | nil hle => exact .nil (Int.le_trans hle hhi)
  | note hr _ ih => exact .note hr (ih hhi)
  | reuse hsize hid ht hformed hdrawn hstop h _ =>
      exact .reuse hsize hid ht hformed hdrawn (Int.le_trans hstop hhi) h
  | node hid hty hsize hstop hdepth hinner houter _ _ =>
      exact .node hid hty hsize (Int.le_trans hstop hhi) hdepth hinner houter

/-- Records in front of others show more behind them. -/
theorem append {a b : List Record} {os' : List (Outline NodeType)}
    (ha : d.Shows inRepeat depth mid hi a os') (hb : d.Shows inRepeat depth lo mid b os) :
    d.Shows inRepeat depth lo hi (a ++ b) (os ++ os') := by
  induction ha with
  | nil hle =>
      rw [List.append_nil]
      exact hb.mono hle
  | note hr _ ih => exact .note hr (ih hb)
  | reuse hsize hid ht hformed hdrawn hstop _ ih =>
      rw [← List.append_assoc]
      exact .reuse hsize hid ht hformed hdrawn hstop (ih hb)
  | node hid hty hsize hstop hdepth hinner _ _ ih =>
      rw [List.cons_append, List.append_assoc, ← List.append_assoc os]
      exact .node hid hty hsize hstop hdepth hinner (ih hb)

/-- The newest record is a node if its size is not negative. -/
theorem head_node (h : d.Shows inRepeat depth lo hi (r :: rest) os) (hsize : 0 ≤ r.size) :
    ∃ inner outer cs os' ty, rest = inner ++ outer ∧ os = os' ++ d.nodeShown ty r cs ∧ 0 ≤ r.id ∧
      d.set.get? r.id.toNat = some ty ∧ r.size = 4 * (inner.length + 1) ∧ r.stop ≤ hi ∧
      depth ≤ cutoffDepth ∧
      d.Shows (d.repeatOf r.id) (if r.id = inRepeat then depth else depth + 1) r.start r.stop inner
        cs ∧ d.Shows inRepeat depth lo r.start outer os' := by
  cases h with
  | note hr => exact absurd hr.size_lt (by omega)
  | reuse hreuse =>
      unfold Record.reuseSize at hreuse
      omega
  | node hid hty hsize hstop hdepth hinner houter =>
      exact ⟨_, _, _, _, _, rfl, rfl, hid, hty, hsize, hstop, hdepth, hinner, houter⟩

end Shows

theorem repeatOf_of_le {d : BuildPlan} {id : Int} (h : d.repeatFrom ≤ id) : d.repeatOf id = id :=
  if_pos h

theorem Regular.isAnonymous {d : BuildPlan} (hd : d.Regular) {id : Int} {ty : NodeType}
    (hid : 0 ≤ id) (hty : d.set.get? id.toNat = some ty) :
    ty.isAnonymous = true ↔ d.repeatFrom ≤ id := by
  rw [hd.anonymous_iff hty, Int.toNat_of_nonneg hid]

theorem Regular.id_le {d : BuildPlan} (hd : d.Regular) {id : Int} {ty : NodeType}
    (hty : d.set.get? id.toNat = some ty) : id ≤ 65535 := by
  have hlt : id.toNat < d.set.size := (Array.getElem?_eq_some_iff.1 hty).1
  have hle := hd.size_le
  omega

/-- A node that continues the enclosing repetition gives way to what is below it. -/
theorem Shows.lookThrough {d : BuildPlan} (hd : d.Regular) {depth : Nat} {lo hi : Int}
    {r : Record} {rest : List Record} {os : List (Outline NodeType)}
    (h : d.Shows r.id depth lo hi (r :: rest) os) (hsize : 0 ≤ r.size)
    (hrepeat : d.repeatFrom ≤ r.id) :
    d.Shows r.id depth lo hi rest os ∧ d.Shows r.id depth lo r.stop rest os ∧ r.stop ≤ hi := by
  obtain ⟨inner, outer, cs, os', ty, rfl, rfl, hid, hty, -, hstop, -, hinner, houter⟩ :=
    h.head_node hsize
  rw [repeatOf_of_le hrepeat, if_pos rfl] at hinner
  have hshown : d.nodeShown ty r cs = cs := if_pos ((hd.isAnonymous hid hty).2 hrepeat)
  rw [hshown]
  have key := hinner.append houter
  exact ⟨key.mono hstop, key, hstop⟩

/-! ### Packed records -/

/-- Records between two positions, newest first, and what is packed of them. -/
inductive Packs (d : BuildPlan) : Int → Int → List Record → List (Outline NodeType) → Prop
  | nil {lo hi : Int} : lo ≤ hi → Packs d lo hi [] []
  | drop {lo hi : Int} {r : Record} {rs : List Record} {os : List (Outline NodeType)} :
      d.drops r = true → Packs d lo hi rs os → Packs d lo hi (r :: rs) os
  | node {lo hi : Int} {r : Record} {inner outer : List Record}
      {cs os : List (Outline NodeType)} : d.drops r = false → 0 ≤ r.id → r.id ≤ 65535 →
      r.size = 4 * (inner.length + 1) → r.stop ≤ hi → Packs d r.start r.stop inner cs →
      Packs d lo r.start outer os →
      Packs d lo hi (r :: (inner ++ outer))
        (os ++ [.node (Buffer.shownType d.set r.id.toNat) (d.place r.start) (d.place r.stop) cs])

namespace Packs

variable {d : BuildPlan} {lo mid hi : Int} {rs rest : List Record}
  {os os' : List (Outline NodeType)}

theorem le (h : d.Packs lo hi rs os) : lo ≤ hi := by
  induction h with
  | nil hle => exact hle
  | drop _ _ ih => exact ih
  | node _ _ _ _ _ _ _ ihInner ih => omega

theorem mono {hi' : Int} (h : d.Packs lo hi rs os) (hhi : hi ≤ hi') : d.Packs lo hi' rs os := by
  induction h with
  | nil hle => exact .nil (Int.le_trans hle hhi)
  | drop hr _ ih => exact .drop hr (ih hhi)
  | node hr hid hle hsize hstop hinner houter _ _ =>
      exact .node hr hid hle hsize (Int.le_trans hstop hhi) hinner houter

theorem append (h : d.Packs mid hi rs os') (hrest : d.Packs lo mid rest os) :
    d.Packs lo hi (rs ++ rest) (os ++ os') := by
  induction h with
  | nil hle =>
      rw [List.append_nil]
      exact hrest.mono hle
  | drop hr _ ih => exact .drop hr (ih hrest)
  | node hr hid hle hsize hstop hinner _ _ ih =>
      rw [List.cons_append, List.append_assoc, ← List.append_assoc os]
      exact .node hr hid hle hsize hstop hinner (ih hrest)

theorem nested (h : d.Packs lo hi rs os) : Nested (fun r => d.drops r = true) lo hi rs := by
  induction h with
  | nil hle => exact .nil hle
  | drop hr _ ih => exact .skip hr ih
  | node _ hid _ hsize hstop _ _ ihInner ih => exact .node hid hsize hstop ihInner ih

/-- As many records are copied as there are nodes. -/
theorem kept_eq (h : d.Packs lo hi rs os) : Builder.kept d rs = Outline.countAll os := by
  unfold Builder.kept
  induction h with
  | nil => rfl
  | drop hr _ ih =>
      rw [List.countP_cons_of_neg (by simp [hr])]
      exact ih
  | node hr _ _ _ _ _ _ ihInner ih =>
      rw [List.countP_cons_of_pos (by simp [hr]), List.countP_append, ihInner, ih,
        Outline.countAll_append]
      simp only [Outline.countAll, Outline.count]
      omega

end Packs

/-- What records show is what is packed of them, unless an older tree stands among them. -/
theorem Shows.packs {d : BuildPlan} (hd : d.Regular) {inRepeat : Int} {depth : Nat} {lo hi : Int}
    {rs : List Record} {os : List (Outline NodeType)} (h : d.Shows inRepeat depth lo hi rs os)
    (hreuse : ∀ r ∈ rs, r.size ≠ Record.reuseSize) : d.Packs lo hi rs os := by
  induction h with
  | nil hle => exact .nil hle
  | note hr _ ih =>
      rw [List.forall_mem_cons] at hreuse
      exact .drop (by simp [drops, hr.size_lt]) (ih hreuse.2)
  | reuse hsize => exact absurd hsize (hreuse _ List.mem_cons_self)
  | @node inRepeat depth lo hi r inner outer cs os ty hid hty hsize hstop _ _ _ ihInner ih =>
      rw [List.forall_mem_cons, List.forall_mem_append] at hreuse
      have hcs := ihInner hreuse.2.1
      have hos := ih hreuse.2.2
      by_cases hrepeat : d.repeatFrom ≤ r.id
      · have hshown : d.nodeShown ty r cs = cs := if_pos ((hd.isAnonymous hid hty).2 hrepeat)
        rw [hshown]
        exact .drop (by simp [drops, hrepeat]) ((hcs.append hos).mono hstop)
      · have hnamed : ¬ ty.isAnonymous = true := fun h => hrepeat ((hd.isAnonymous hid hty).1 h)
        have htype : Buffer.shownType d.set r.id.toNat = ty := by simp [Buffer.shownType, hty]
        rw [nodeShown, if_neg hnamed, ← htype]
        refine .node ?_ hid (hd.id_le hty) hsize hstop hcs hos
        simp only [drops, Bool.or_eq_false_iff, decide_eq_false_iff_not]
        omega

end BuildPlan

namespace Builder

variable {d : BuildPlan}

/-! ### Runs -/

/-- A run that takes the newest of the records `seg`: what it packs is the last part of what they
show, the others lie before its start, and `mid` is that start. -/
structure Run.Shows (d : BuildPlan) (inRepeat : Int) (depth minStart : Nat) (lo hi : Int)
    (seg : List Record) (os : List (Outline NodeType)) (run : Run) (taken rest : List Record)
    (mid : Int) (packed left : List (Outline NodeType)) : Prop where
  split : seg = taken ++ rest
  shown_eq : os = left ++ packed
  size_eq : run.size = 4 * taken.length
  skip_eq : run.skip = 4 * taken.countP d.drops
  packs : d.Packs mid hi taken packed
  shows : d.Shows inRepeat depth lo mid rest left
  start_eq : taken ≠ [] → (run.start : Int) = mid
  start_le : taken ≠ [] → minStart ≤ mid

/-- Some run of the records `seg`. -/
def Run.IsShown (d : BuildPlan) (inRepeat : Int) (depth minStart : Nat) (lo hi : Int)
    (seg : List Record) (os : List (Outline NodeType)) (run : Run) : Prop :=
  ∃ taken rest mid packed left,
    run.Shows d inRepeat depth minStart lo hi seg os taken rest mid packed left

section Scan

variable {inRepeat : Int} {depth minStart : Nat} {lo hi mid : Int}
  {seg below taken rest inner outer : List Record} {os packed left : List (Outline NodeType)}
  {c : Record} {run : Run}

/-- A node of the enclosing repetition is looked through. -/
theorem Run.Shows.lookThrough (hd : d.Regular)
    (h : run.Shows d c.id depth minStart lo hi seg os taken (c :: rest) mid packed left)
    (hsize : 0 ≤ c.size) (hrepeat : d.repeatFrom ≤ c.id) (hne : taken ≠ []) :
    Run.Shows d c.id depth minStart lo hi seg os
      { run with size := run.size + 4, skip := run.skip + 4 } (taken ++ [c]) rest mid packed
      left := by
  have hdrops : d.drops c = true := by simp [BuildPlan.drops, hrepeat]
  refine ⟨?_, h.shown_eq, ?_, ?_, ?_, (h.shows.lookThrough hd hsize hrepeat).1,
    fun _ => h.start_eq hne, fun _ => h.start_le hne⟩
  · rw [h.split, List.append_assoc]
    rfl
  · simp only [h.size_eq, List.length_append, List.length_singleton]
    omega
  · simp only [h.skip_eq, List.countP_append, List.countP_singleton, hdrops, if_true]
    omega
  · have key := h.packs.append (.drop hdrops (.nil (Int.le_refl mid)))
    rwa [List.nil_append] at key

/-- A whole node is added. -/
theorem Run.Shows.addNode (hd : d.Regular)
    (h : run.Shows d inRepeat depth minStart lo hi seg os taken (c :: (inner ++ outer)) mid packed
      left) (hsize : c.size = 4 * (inner.length + 1)) (hlo : 0 ≤ lo)
    (hreuse : ∀ r ∈ inner, r.size ≠ Record.reuseSize) (hstart : minStart ≤ c.startPos) :
    ∃ packed left, Run.Shows d inRepeat depth minStart lo hi seg os
      ⟨run.size + c.size.toNat, c.startPos, run.skip + 4 * (c :: inner).countP d.drops⟩
      (taken ++ c :: inner) outer c.start packed left := by
  obtain ⟨inner', outer', cs, left', ty, heq, rfl, hid, hty, hsize', hstop, hdepth, hinner,
    houter⟩ := h.shows.head_node (by omega)
  obtain ⟨rfl, rfl⟩ := List.append_inj heq (by omega)
  have hnode : d.Shows inRepeat depth c.start mid (c :: inner) (d.nodeShown ty c cs) := by
    have key := BuildPlan.Shows.node hid hty hsize hstop hdepth hinner (.nil (Int.le_refl c.start))
    rwa [List.append_nil, List.nil_append] at key
  have hpacks : d.Packs c.start mid (c :: inner) (d.nodeShown ty c cs) := by
    refine hnode.packs hd ?_
    rw [List.forall_mem_cons]
    refine ⟨?_, hreuse⟩
    unfold Record.reuseSize
    omega
  have hle := houter.le
  have hpos : (c.startPos : Int) = c.start := Record.startPos_eq (by omega)
  refine ⟨d.nodeShown ty c cs ++ packed, left', ?_, ?_, ?_, ?_, h.packs.append hpacks, houter,
    fun _ => hpos, fun _ => by omega⟩
  · rw [h.split]
    simp
  · rw [h.shown_eq, List.append_assoc]
  · simp only [h.size_eq, List.length_append, List.length_cons]
    omega
  · simp only [h.skip_eq, List.countP_append]
    omega

/-- Looking over the records goes from one run to the next. -/
theorem scanF_isShown (hd : d.Regular) (hlo : 0 ≤ lo)
    (hrepeat : inRepeat = -1 ∨ d.repeatFrom ≤ inRepeat) (fuel : Nat) {r : Reader}
    {whole complete : Run} {taken rest : List Record} {mid : Int}
    {packed left : List (Outline NodeType)} (hr : r.Holds (rest ++ below))
    (hwhole : whole.Shows d inRepeat depth minStart lo hi seg os taken rest mid packed left)
    (hcomplete : complete.IsShown d inRepeat depth minStart lo hi seg os)
    (hfirst : taken = [] → ∀ c ∈ rest.head?, c.id ≠ inRepeat) :
    (scanF d (4 * below.length) minStart inRepeat fuel r whole complete).1.IsShown d inRepeat
        depth minStart lo hi seg os ∧
      (scanF d (4 * below.length) minStart inRepeat fuel r whole complete).2.IsShown d inRepeat
        depth minStart lo hi seg os := by
  induction fuel generalizing r whole complete taken rest mid packed left with
  | zero => exact ⟨⟨_, _, _, _, _, hwhole⟩, hcomplete⟩
  | succ fuel ih =>
      unfold scanF
      cases rest with
      | nil =>
          have hpos := hr.pos_eq
          rw [List.nil_append] at hpos
          simp only [hpos, Nat.le_refl, if_true]
          exact ⟨⟨_, _, _, _, _, hwhole⟩, hcomplete⟩
      | cons c rest =>
          rw [List.cons_append] at hr
          obtain ⟨hrecord, hnext⟩ := hr.next
          have hpos := hr.pos_eq
          simp only [List.length_append, List.length_cons] at hpos
          simp only [hrecord]
          rw [if_neg (by omega)]
          split
          · -- a node of the enclosing repetition
            rename_i hsame
            simp only [Bool.and_eq_true, decide_eq_true_eq] at hsame
            obtain ⟨hid, hnode⟩ := hsame
            have hne : taken ≠ [] := fun heq => hfirst heq c rfl hid
            subst hid
            have hle : d.repeatFrom ≤ c.id := by
              rcases hrepeat with heq | hle
              · obtain ⟨-, -, -, -, -, -, -, hid, -⟩ := hwhole.shows.head_node hnode
                omega
              · exact hle
            exact ih hnext (hwhole.lookThrough hd hnode hle hne) ⟨_, _, _, _, _, hwhole⟩ (by simp)
          · split
            · -- a mark, or a node that does not fit, ends the run
              exact ⟨⟨_, _, _, _, _, hwhole⟩, hcomplete⟩
            · rename_i hfits
              simp only [Bool.or_eq_true, decide_eq_true_eq, not_or] at hfits
              obtain ⟨inner, outer, -, -, -, rfl, -, -, -, hsize, -⟩ :=
                hwhole.shows.head_node (by omega)
              have hslots : r.pos - c.size.toNat = 4 * (outer ++ below).length := by
                simp only [List.length_append] at hpos ⊢
                omega
              rw [List.append_assoc] at hnext
              simp only [hslots]
              cases hpass : passF d (4 * (outer ++ below).length) r.pos r.next
                  (if d.repeatFrom ≤ c.id then 4 else 0) with
              | none => exact ⟨⟨_, _, _, _, _, hwhole⟩, hcomplete⟩
              | some passed =>
                  -- the node is added with all that is below it
                  simp only [List.length_append] at hpos
                  obtain ⟨r', skipped⟩ := passed
                  have hreuse := passF_ne_reuse inner r.pos hnext (by omega) hpass
                  obtain ⟨hr', rfl⟩ := passF_holds inner r.pos hnext (by omega) hpass
                  simp only [countP_drops_node (by omega : 0 ≤ c.size)]
                  obtain ⟨packed', left', hadded⟩ :=
                    hwhole.addNode hd hsize hlo hreuse (by omega)
                  exact ih hr' hadded hcomplete (by simp)

/-- **A run that is found shows the last part of what the records show.** -/
theorem findRun_shows (hd : d.Regular) (hlo : 0 ≤ lo)
    (hrepeat : inRepeat = -1 ∨ d.repeatFrom ≤ inRepeat) {r : Reader} (hr : r.Holds (seg ++ below))
    (hseg : d.Shows inRepeat depth lo hi seg os) (hfirst : ∀ c ∈ seg.head?, c.id ≠ inRepeat)
    (h : findRun d r (4 * below.length) inRepeat = some run) :
    ∃ taken rest mid packed left, taken ≠ [] ∧
      run.Shows d inRepeat depth (r.record.stopPos - d.maxBuffer) lo hi seg os taken rest mid packed
        left := by
  unfold findRun at h
  simp only at h
  have hstart : Run.Shows d inRepeat depth (r.record.stopPos - d.maxBuffer) lo hi seg os {} [] seg
      hi [] os :=
    ⟨rfl, by simp, rfl, rfl, .nil (Int.le_refl _), hseg, fun hne => absurd rfl hne,
      fun hne => absurd rfl hne⟩
  have key := scanF_isShown hd hlo hrepeat r.pos hr hstart ⟨_, _, _, _, _, hstart⟩ fun _ => hfirst
  generalize scanF d (4 * below.length) (r.record.stopPos - d.maxBuffer) inRepeat r.pos r {} {} =
    found at h key
  have hpart : (if inRepeat < 0 || found.1.size = r.pos - 4 * below.length then found.1
      else found.2).IsShown d inRepeat depth (r.record.stopPos - d.maxBuffer) lo hi seg os := by
    split
    · exact key.1
    · exact key.2
  generalize (if inRepeat < 0 || found.1.size = r.pos - 4 * below.length then found.1
    else found.2) = chosen at h hpart
  split at h
  · rename_i hsize
    obtain rfl := Option.some.inj h
    obtain ⟨taken, rest, mid, packed, left, hshows⟩ := hpart
    refine ⟨taken, rest, mid, packed, left, ?_, hshows⟩
    rintro rfl
    rw [hshows.size_eq] at hsize
    simp at hsize
  · cases h

end Scan

/-! ### Copying -/

section Copy

variable {base : Nat}

/-- What copying a node with some fuel spells. -/
def SpellsNode (d : BuildPlan) (base fuel : Nat) : Prop :=
  ∀ (i : Nat) (out : List Nat) {c : Record} {inner below : List Record} {b : Builder} {index : Nat}
      {cs : List (Outline NodeType)},
    b.reader.Holds (c :: (inner ++ below)) → d.drops c = false → 0 ≤ c.id → c.id ≤ 65535 →
    c.size = 4 * (inner.length + 1) → d.Packs c.start c.stop inner cs →
    2 * (inner.length + 1) ≤ fuel → index = i + 4 + 4 * kept d inner → base ≤ c.start →
    c.stop - base ≤ 65535 → index ≤ 65535 →
      ∃ slots, (copyNodeF d base fuel b index out).2.2 = slots ++ out ∧
        Buffer.Spells d.set (d.place base) i slots
          [.node (Buffer.shownType d.set c.id.toNat) (d.place c.start) (d.place c.stop) cs]

/-- What copying a run with some fuel spells. -/
def SpellsRun (d : BuildPlan) (base fuel : Nat) : Prop :=
  ∀ (i : Nat) (out : List Nat) {seg below : List Record} {b : Builder} {lo hi : Int} {index : Nat}
      {os : List (Outline NodeType)},
    b.reader.Holds (seg ++ below) → d.Packs lo hi seg os → 2 * seg.length + 1 ≤ fuel →
    index = i + 4 * kept d seg → base ≤ lo → hi - base ≤ 65535 → index ≤ 65535 →
      ∃ slots, (copyRunF d base fuel (4 * below.length) b index out).2.2 = slots ++ out ∧
        Buffer.Spells d.set (d.place base) i slots os

theorem copyNodeF_spells {fuel : Nat} (hstart : d.start ≤ base) (hrun : SpellsRun d base fuel) :
    SpellsNode d base (fuel + 1) := by
  intro i out c inner below b index cs hb hdrops hid hle hsize hinner hfuel hindex hbase hroom hfits
  obtain ⟨hrecord, hnext⟩ := hb.next
  have hrange := hinner.le
  have hkeep : (decide (0 ≤ c.size) && decide (c.id < d.repeatFrom)) = true := by
    simp only [BuildPlan.drops, Bool.or_eq_false_iff, decide_eq_false_iff_not] at hdrops
    simp only [Bool.and_eq_true, decide_eq_true_eq]
    omega
  have hidSlot : half c.id = c.id.toNat := by
    unfold half
    omega
  have hstartSlot : half ((c.startPos - base : Nat)) = (c.start - base).toNat := by
    rw [startPos_sub hbase, half_of_le (by omega)]
  have hstopSlot : half ((c.stopPos - base : Nat)) = (c.stop - base).toNat := by
    rw [stopPos_sub (by omega), half_of_le (by omega)]
  have hplace : d.place base + (c.start - base).toNat = d.place c.start ∧
      d.place base + (c.stop - base).toNat = d.place c.stop := by
    unfold BuildPlan.place
    omega
  -- the slots of the children
  obtain ⟨slots, hslots, hspells⟩ : ∃ slots,
      (if 4 < c.size then
          copyRunF d base fuel (b.next.reader.pos - (c.size.toNat - 4)) b.next index out
        else (b.next, index, out)).2.2 = slots ++ out ∧
      Buffer.Spells d.set (d.place base) (i + 4) slots cs := by
    split
    · have hpos : b.next.reader.pos - (c.size.toNat - 4) = 4 * below.length := by
        have hpos := hnext.pos_eq
        rw [List.length_append] at hpos
        simp only [Builder.next]
        omega
      rw [hpos]
      exact hrun _ _ hnext hinner (by omega) (by omega) hbase hroom hfits
    · obtain rfl : inner = [] := List.eq_nil_of_length_eq_zero (by omega)
      cases hinner
      exact ⟨[], rfl, .nil⟩
  have hlast : index = i + 4 + slots.length := by
    rw [hspells.length_eq, ← hinner.kept_eq]
    exact hindex
  unfold copyNodeF
  simp only [hrecord, hkeep, if_true, hidSlot, hstartSlot, hstopSlot, half_of_le hfits]
  refine ⟨c.id.toNat :: (c.start - base).toNat :: (c.stop - base).toNat :: index :: (slots ++ []),
    by simp [hslots], ?_⟩
  rw [← hplace.1, ← hplace.2]
  exact .node hlast hspells .nil

theorem copyRunF_spells {fuel : Nat} (hnode : SpellsNode d base fuel)
    (hrun : SpellsRun d base fuel) : SpellsRun d base (fuel + 1) := by
  intro i out seg below b lo hi index os hb hseg hfuel hindex hbase hroom hfits
  have hpos := hb.pos_eq
  unfold copyRunF
  cases hseg with
  | nil hle =>
      rw [if_pos (by rw [hpos]; simp)]
      exact ⟨[], rfl, .nil⟩
  | @drop _ _ c rest _ hdrops hrest =>
      rw [List.cons_append] at hb hpos
      simp only [List.length_cons, List.length_append] at hpos hfuel
      obtain ⟨hrecord, hnext⟩ := hb.next
      rw [if_neg (by omega)]
      simp only
      rw [copyNodeF_of_drops (by rw [hrecord]; exact hdrops) (by omega), hrecord]
      refine hrun i out ?_ hrest (by omega) ?_ hbase hroom hfits
      · rw [reader_mark]
        exact hnext
      · rw [hindex, kept, List.countP_cons_of_neg (by simp [hdrops])]
        rfl
  | @node _ _ c inner outer cs os hdrops hid hle hsize hstop hinner houter =>
      have hcount : kept d (c :: (inner ++ outer)) = kept d outer + 1 + kept d inner := by
        unfold kept
        rw [List.countP_cons_of_pos (by simp [hdrops]), List.countP_append]
        omega
      have hlo := houter.le
      have hrange := hinner.le
      rw [List.cons_append, List.append_assoc] at hb hpos
      simp only [List.length_cons, List.length_append] at hpos hfuel
      rw [if_neg (by omega)]
      simp only
      -- the node comes first, and its slots stand last
      have hcopied : Copied base c.start c.stop (outer ++ below) (i + 4 * kept d outer) index out
          (copyNodeF d base fuel b index out) :=
        (copy_spec d base fuel).1 hb hdrops hsize hinner.nested (by omega) (by omega)
      obtain ⟨slots, hslots, hspells⟩ := hnode (i + 4 * kept d outer) out hb hdrops hid hle hsize
        hinner (by omega) (by omega) (by omega) (by omega) hfits
      rw [hcopied.index_eq, hslots]
      obtain ⟨slots', hslots', hspells'⟩ := hrun i (slots ++ out) hcopied.reader houter (by omega)
        rfl hbase (by omega) (by omega)
      refine ⟨slots' ++ slots, by rw [hslots', List.append_assoc], hspells'.append ?_⟩
      rw [hspells'.length_eq, ← houter.kept_eq]
      exact hspells

/-- Copying spells what is packed. -/
theorem copy_spells (hstart : d.start ≤ base) (fuel : Nat) :
    SpellsNode d base fuel ∧ SpellsRun d base fuel := by
  induction fuel with
  | zero =>
      constructor
      · intro _ _ _ _ _ _ _ _ _ _ _ _ _ _ hfuel
        omega
      · intro _ _ _ _ _ _ _ _ _ _ _ hfuel
        omega
  | succ fuel ih => exact ⟨copyNodeF_spells hstart ih.2, copyRunF_spells ih.1 ih.2⟩

end Copy

/-- **The buffer of a run shows what the run packs.** -/
theorem pack_shows {b : Builder} {run : Run} {inRepeat : Int} {depth minStart stop : Nat}
    {lo mid : Int} {seg below taken rest : List Record} {os packed left : List (Outline NodeType)}
    (hb : b.reader.Holds (seg ++ below))
    (hrun : run.Shows d inRepeat depth minStart lo stop seg os taken rest mid packed left)
    (hne : taken ≠ []) (hlo : d.start ≤ lo) (hroom : stop - run.start ≤ 65535)
    (hcount : Outline.countAll packed ≤ 16383) :
    ∃ buffer : Buffer, (pack d b run stop).2 = .packed buffer ∧ buffer.WellFormed ∧
      buffer.set = d.set ∧ buffer.length = stop - run.start ∧
      buffer.outlines (d.place run.start) = packed ∧
      (pack d b run stop).1.reader.Holds (rest ++ below) := by
  obtain ⟨rfl, -, hsize, hskip, hpacks, hrest, hstart, -⟩ := hrun
  have hstart := hstart hne
  have hle := hrest.le
  have hend := hpacks.le
  rw [List.append_assoc] at hb
  have hpos := hb.pos_eq
  have htotal := length_eq_kept d taken
  have hkept : run.size - run.skip = 0 + 4 * kept d taken := by omega
  have hindex : run.size - run.skip ≤ 65535 := by
    rw [hkept, hpacks.kept_eq]
    omega
  have hslots : b.reader.pos - run.size = 4 * (rest ++ below).length := by
    simp only [List.length_append] at hpos ⊢
    omega
  have hfuel : 2 * taken.length + 1 ≤ 2 * b.reader.pos + 2 := by
    simp only [List.length_append] at hpos
    omega
  have hcopied : Copied run.start mid stop (rest ++ below) 0 (run.size - run.skip) []
      (copyRunF d run.start (2 * b.reader.pos + 2) (4 * (rest ++ below).length) b
        (run.size - run.skip) []) :=
    (copy_spec d run.start (2 * b.reader.pos + 2)).2 hb hpacks.nested hfuel hkept
  have hbase : d.start ≤ run.start := by omega
  obtain ⟨slots, hout, hspells⟩ := (copy_spells hbase _).2 0 [] hb hpacks hfuel hkept (by omega)
    (by omega) hindex
  unfold pack
  simp only [hslots]
  generalize copyRunF d run.start (2 * b.reader.pos + 2) (4 * (rest ++ below).length) b
    (run.size - run.skip) [] = r at hcopied hout ⊢
  obtain ⟨hreader, hzero, slots', hout', hlength, hnests⟩ := hcopied
  rw [List.append_nil] at hout hout'
  obtain rfl : slots' = slots := hout'.symm.trans hout
  simp only [hzero, hout, List.replicate_zero, List.nil_append]
  have hword : min (stop - run.start) maxWord = stop - run.start := by
    unfold maxWord
    omega
  have key := hnests (by omega) (by omega) hindex
  rw [show (mid - run.start : Int).toNat = 0 by omega,
    show ((stop : Int) - run.start).toNat = stop - run.start by omega] at key
  refine ⟨_, rfl, ?_, rfl, hword, ?_, hreader⟩
  · unfold Buffer.WellFormed Buffer.make
    simp only [hword]
    exact key
  · exact Buffer.Spells.outlines_eq (b := .make slots'.toArray (stop - run.start) d.set) hspells

end Builder

end IncrementalLR
