/-
**Packing keeps nodes nested.**

A run of small nodes is looked over once to see how far it goes, and then copied into a buffer.  The
two walks agree on which records are dropped, so that the slots come out just filled; the copy lists
the nodes in pre-order, each in front of what is below it.

Slots have 16 bits.  Positions in a buffer fit because a run is only as long as a buffer may be;
indices fit unless a run has very many nodes without text, and what is proved of a buffer is
therefore put under the condition that its size fits.

Main definitions:

* `Reader.Holds` — the records that a reader has still to read;
* `Builder.Run.Covers` — a run as a part of the records at a reader;
* `Builder.CopiesNode`, `Builder.CopiesRun` — what copying leaves.

Main results:

* `Builder.findRun_covers` — what a run that was found consists of;
* `Builder.pack_spec` — the buffer of a run;
* `Builder.collectF_spec`, `Builder.sound_flat` — the buffer of nodes without children.
-/

import IncrementalLR.Proofs.Planned

set_option relaxedAutoImplicit false
set_option autoImplicit false

namespace IncrementalLR

/-! ### Readers -/

/-- The records that a reader has still to read, newest first. -/
structure Reader.Holds (r : Reader) (rs : List Record) : Prop where
  records_eq : r.records = rs
  pos_eq : r.pos = 4 * rs.length
  opened : r.current = [] → r.older = []
  pieces : ∀ piece ∈ r.older, piece ≠ []

namespace Reader.Holds

variable {r : Reader} {c : Record} {rs rest : List Record}

theorem of_refill (hrecords : r.records = rs) (hpos : r.pos = 4 * rs.length)
    (hpieces : ∀ piece ∈ r.older, piece ≠ []) : r.refill.Holds rs := by
  obtain ⟨pos, current, older⟩ := r
  have hrefill := records_refill ⟨pos, current, older⟩
  rw [hrecords] at hrefill
  cases current with
  | cons d current => exact ⟨hrefill, hpos, by simp [refill], hpieces⟩
  | nil =>
      cases older with
      | nil => exact ⟨hrefill, hpos, fun _ => rfl, hpieces⟩
      | cons piece older =>
          refine ⟨hrefill, hpos, fun h => ?_, fun p hp => hpieces p (List.mem_cons_of_mem _ hp)⟩
          exact absurd h (hpieces piece List.mem_cons_self)

/-- Reading takes the newest record. -/
theorem next (h : r.Holds (c :: rest)) : r.record = c ∧ r.next.Holds rest := by
  obtain ⟨pos, current, older⟩ := r
  obtain ⟨hrecords, hpos, hopened, hpieces⟩ := h
  cases current with
  | nil =>
      have holder : older = [] := hopened rfl
      rw [holder] at hrecords
      cases hrecords
  | cons d current =>
      obtain ⟨rfl, hrest⟩ := List.cons.inj hrecords
      refine ⟨rfl, of_refill hrest ?_ hpieces⟩
      simp only [List.length_cons] at hpos ⊢
      omega

end Reader.Holds

/-! ### Runs -/

namespace Builder

variable {d : BuildPlan}

/-- Passing over the records down to a slot counts those that are left out. -/
theorem passF_holds {below : List Record} (seg : List Record) (fuel : Nat) {r r' : Reader}
    {skip skip' : Nat} (hr : r.Holds (seg ++ below)) (hfuel : seg.length ≤ fuel)
    (h : passF d (4 * below.length) fuel r skip = some (r', skip')) :
    r'.Holds below ∧ skip' = skip + 4 * seg.countP d.drops := by
  induction seg generalizing fuel r skip with
  | nil =>
      have hpos := hr.pos_eq
      cases fuel with
      | zero =>
          obtain ⟨rfl, rfl⟩ := Prod.mk.inj (Option.some.inj h)
          exact ⟨hr, rfl⟩
      | succ fuel =>
          unfold passF at h
          rw [if_pos (by rw [hpos]; simp)] at h
          obtain ⟨rfl, rfl⟩ := Prod.mk.inj (Option.some.inj h)
          exact ⟨hr, rfl⟩
  | cons c rest ih =>
      cases fuel with
      | zero => simp at hfuel
      | succ fuel =>
          obtain ⟨hrecord, hnext⟩ := hr.next
          have hpos := hr.pos_eq
          simp only [List.cons_append, List.length_cons, List.length_append] at hpos hfuel
          unfold passF at h
          rw [if_neg (by omega), hrecord] at h
          split at h
          · rename_i hmark
            split at h
            · obtain ⟨hr', rfl⟩ := ih fuel hnext (by omega) h
              have hdrops : d.drops c = true := by simp [BuildPlan.drops, hmark]
              refine ⟨hr', ?_⟩
              rw [List.countP_cons_of_pos hdrops]
              omega
            · cases h
          · rename_i hnode
            obtain ⟨hr', rfl⟩ := ih fuel hnext (by omega) h
            refine ⟨hr', ?_⟩
            by_cases hrepeat : d.repeatFrom ≤ c.id
            · rw [if_pos hrepeat, List.countP_cons_of_pos (by simp [BuildPlan.drops, hrepeat])]
              omega
            · rw [if_neg hrepeat,
                List.countP_cons_of_neg (by simp [BuildPlan.drops, hrepeat, hnode])]

/-- Passing over the records of a node stops at older trees. -/
theorem passF_ne_reuse {below : List Record} (seg : List Record) (fuel : Nat) {r r' : Reader}
    {skip skip' : Nat} (hr : r.Holds (seg ++ below)) (hfuel : seg.length ≤ fuel)
    (h : passF d (4 * below.length) fuel r skip = some (r', skip')) :
    ∀ c ∈ seg, c.size ≠ Record.reuseSize := by
  induction seg generalizing fuel r skip with
  | nil => simp
  | cons c rest ih =>
      cases fuel with
      | zero => simp at hfuel
      | succ fuel =>
          obtain ⟨hrecord, hnext⟩ := hr.next
          have hpos := hr.pos_eq
          simp only [List.cons_append, List.length_cons, List.length_append] at hpos hfuel
          rw [passF, if_neg (by omega), hrecord] at h
          rw [List.forall_mem_cons]
          split at h
          · split at h
            · rename_i hcontext
              refine ⟨?_, ih fuel hnext (by omega) h⟩
              rw [hcontext]
              decide
            · cases h
          · rename_i hnode
            refine ⟨?_, ih fuel hnext (by omega) h⟩
            unfold Record.reuseSize
            omega

/-- A node of a repetition is left out as well, but not what is below it. -/
theorem countP_drops_node {c : Record} {inner : List Record} (h : 0 ≤ c.size) :
    (if d.repeatFrom ≤ c.id then 4 else 0) + 4 * inner.countP d.drops =
      4 * (c :: inner).countP d.drops := by
  by_cases hrepeat : d.repeatFrom ≤ c.id
  · rw [if_pos hrepeat, List.countP_cons_of_pos (by simp [BuildPlan.drops, hrepeat])]
    omega
  · rw [if_neg hrepeat, List.countP_cons_of_neg (by simp [BuildPlan.drops, hrepeat]; omega)]
    omega

/-- A run of the records `seg` between two positions: it takes the newest ones, those that are left
lie before its start, and `mid` is that start. -/
structure Run.Covers (d : BuildPlan) (levels minStart : Nat) (lo hi : Int) (seg : List Record)
    (run : Run) (taken rest : List Record) (mid : Int) : Prop where
  split : seg = taken ++ rest
  size_eq : run.size = 4 * taken.length
  skip_eq : run.skip = 4 * taken.countP d.drops
  nested_taken : Nested (fun r => d.drops r = true) mid hi taken
  forest_rest : d.Forest levels lo mid rest
  start_eq : taken ≠ [] → (run.start : Int) = mid
  start_le : taken ≠ [] → minStart ≤ run.start

/-- Some run of the records `seg`. -/
def Run.IsPart (d : BuildPlan) (levels minStart : Nat) (lo hi : Int) (seg : List Record)
    (run : Run) : Prop :=
  ∃ taken rest mid, run.Covers d levels minStart lo hi seg taken rest mid

section Scan

variable {levels minStart : Nat} {lo hi mid : Int} {seg below taken rest inner outer : List Record}
  {c : Record} {run : Run}

/-- A node of the enclosing repetition is looked through. -/
theorem Run.Covers.lookThrough
    (h : run.Covers d levels minStart lo hi seg taken (c :: rest) mid)
    (hc : d.drops c = true) (hne : taken ≠ []) :
    Run.Covers d levels minStart lo hi seg
      { run with size := run.size + 4, skip := run.skip + 4 } (taken ++ [c]) rest mid := by
  refine ⟨?_, ?_, ?_, ?_, h.forest_rest.tail, fun _ => h.start_eq hne, fun _ => h.start_le hne⟩
  · rw [h.split, List.append_assoc]
    rfl
  · simp only [h.size_eq, List.length_append, List.length_singleton]
    omega
  · simp only [h.skip_eq, List.countP_append, List.countP_singleton, hc, if_true]
    omega
  · exact h.nested_taken.append (.skip hc (.nil (Int.le_refl _)))

/-- A whole node is added, unless an older tree stands below it. -/
theorem Run.Covers.addNode
    (h : run.Covers d levels minStart lo hi seg taken (c :: (inner ++ outer)) mid)
    (hlo : 0 ≤ lo) (hid : 0 ≤ c.id) (hsize : c.size = 4 * (inner.length + 1)) (hstop : c.stop ≤ mid)
    (hinner : d.Forest levels c.start c.stop inner) (houter : d.Forest levels lo c.start outer)
    (hfresh : ∀ r ∈ inner, r.size ≠ Record.reuseSize) (hmin : minStart ≤ c.startPos) :
    Run.Covers d levels minStart lo hi seg
      ⟨run.size + c.size.toNat, c.startPos, run.skip + 4 * (c :: inner).countP d.drops⟩
      (taken ++ c :: inner) outer c.start := by
  have hnode : Nested (fun r => d.drops r = true) c.start mid (c :: inner) :=
    (Nested.root hid hsize rfl rfl (hinner.nested hfresh)).mono hstop
  have hstart := houter.le
  refine ⟨?_, ?_, ?_, h.nested_taken.append hnode, houter, fun _ => ?_, fun _ => hmin⟩
  · rw [h.split]
    simp
  · simp only [h.size_eq, List.length_append, List.length_cons]
    omega
  · simp only [h.skip_eq, List.countP_append]
    omega
  · simp only [Record.startPos]
    omega

/-- Looking over the records goes from one run to the next. -/
theorem scanF_isPart {inRepeat : Int} (hlo : 0 ≤ lo)
    (hrepeat : inRepeat = -1 ∨ d.repeatFrom ≤ inRepeat) (fuel : Nat) {r : Reader}
    {whole complete : Run} {taken rest : List Record} {mid : Int}
    (hr : r.Holds (rest ++ below))
    (hwhole : whole.Covers d levels minStart lo hi seg taken rest mid)
    (hcomplete : complete.IsPart d levels minStart lo hi seg)
    (hfirst : taken = [] → ∀ c ∈ rest.head?, c.id ≠ inRepeat) :
    (scanF d (4 * below.length) minStart inRepeat fuel r whole complete).1.IsPart d levels
        minStart lo hi seg ∧
      (scanF d (4 * below.length) minStart inRepeat fuel r whole complete).2.IsPart d levels
        minStart lo hi seg := by
  induction fuel generalizing r whole complete taken rest mid with
  | zero => exact ⟨⟨_, _, _, hwhole⟩, hcomplete⟩
  | succ fuel ih =>
      unfold scanF
      cases rest with
      | nil =>
          have hpos := hr.pos_eq
          rw [List.nil_append] at hpos
          simp only [hpos, Nat.le_refl, if_true]
          exact ⟨⟨_, _, _, hwhole⟩, hcomplete⟩
      | cons c rest =>
          rw [List.cons_append] at hr
          obtain ⟨hrecord, hnext⟩ := hr.next
          have hpos := hr.pos_eq
          simp only [List.length_append, List.length_cons] at hpos
          simp only [hrecord]
          rw [if_neg (by omega)]
          split
          · -- a node of the enclosing repetition
            rename_i hsame
            simp only [Bool.and_eq_true, decide_eq_true_eq] at hsame
            have hne : taken ≠ [] := fun heq => hfirst heq c rfl hsame.1
            obtain ⟨_, _, _, hid, _⟩ := hwhole.forest_rest.head_node hsame.2
            have hdrops : d.drops c = true := by
              simp only [BuildPlan.drops, Bool.or_eq_true, decide_eq_true_eq]
              omega
            exact ih hnext (hwhole.lookThrough hdrops hne) ⟨_, _, _, hwhole⟩ (by simp)
          · split
            · -- a mark, or a node that does not fit, ends the run
              exact ⟨⟨_, _, _, hwhole⟩, hcomplete⟩
            · rename_i hfits
              simp only [Bool.or_eq_true, decide_eq_true_eq, not_or] at hfits
              obtain ⟨inner, outer, rfl, hid, hsize, hstop, hinner, houter⟩ :=
                hwhole.forest_rest.head_node (by omega)
              have hslots : r.pos - c.size.toNat = 4 * (outer ++ below).length := by
                simp only [List.length_append] at hpos ⊢
                omega
              rw [List.append_assoc] at hnext
              simp only [hslots]
              cases hpass : passF d (4 * (outer ++ below).length) r.pos r.next
                  (if d.repeatFrom ≤ c.id then 4 else 0) with
              | none => exact ⟨⟨_, _, _, hwhole⟩, hcomplete⟩
              | some passed =>
                  -- the node is added with all that is below it
                  simp only [List.length_append] at hpos
                  obtain ⟨r', skipped⟩ := passed
                  have hfresh := passF_ne_reuse inner r.pos hnext (by omega) hpass
                  obtain ⟨hr', rfl⟩ := passF_holds inner r.pos hnext (by omega) hpass
                  simp only [countP_drops_node (by omega : 0 ≤ c.size)]
                  exact ih hr' (hwhole.addNode hlo hid hsize hstop hinner houter hfresh (by omega))
                    hcomplete (by simp)

/-- **A run that is found covers records at the reader.** -/
theorem findRun_covers {inRepeat : Int} {r : Reader} (hlo : 0 ≤ lo)
    (hrepeat : inRepeat = -1 ∨ d.repeatFrom ≤ inRepeat) (hr : r.Holds (seg ++ below))
    (hseg : d.Forest levels lo hi seg) (hfirst : ∀ c ∈ seg.head?, c.id ≠ inRepeat)
    (h : findRun d r (4 * below.length) inRepeat = some run) :
    ∃ taken rest mid, taken ≠ [] ∧
      run.Covers d levels (r.record.stopPos - d.maxBuffer) lo hi seg taken rest mid := by
  unfold findRun at h
  simp only at h
  have hstart : Run.Covers d levels (r.record.stopPos - d.maxBuffer) lo hi seg {} [] seg hi :=
    ⟨rfl, rfl, rfl, .nil (Int.le_refl _), hseg, fun hne => absurd rfl hne,
      fun hne => absurd rfl hne⟩
  have key := scanF_isPart hlo hrepeat r.pos hr hstart ⟨_, _, _, hstart⟩ fun _ => hfirst
  generalize scanF d (4 * below.length) (r.record.stopPos - d.maxBuffer) inRepeat r.pos r {} {} =
    found at h key
  have hpart : (if inRepeat < 0 || found.1.size = r.pos - 4 * below.length then found.1
      else found.2).IsPart d levels (r.record.stopPos - d.maxBuffer) lo hi seg := by
    split
    · exact key.1
    · exact key.2
  generalize (if inRepeat < 0 || found.1.size = r.pos - 4 * below.length then found.1
    else found.2) = chosen at h hpart
  split at h
  · rename_i hsize
    obtain rfl := Option.some.inj h
    obtain ⟨taken, rest, mid, hcovers⟩ := hpart
    refine ⟨taken, rest, mid, ?_, hcovers⟩
    rintro rfl
    rw [hcovers.size_eq] at hsize
    simp at hsize
  · cases h

end Scan

/-! ### Copying -/

/-- What copying leaves: the reader before what was copied, and new slots from `i` to `index` in
front of `out`, which list the nodes if everything fits into 16 bits. -/
structure Copied (base : Nat) (lo hi : Int) (below : List Record) (i index : Nat) (out : List Nat)
    (r : Builder × Nat × List Nat) : Prop where
  reader : r.1.reader.Holds below
  index_eq : r.2.1 = i
  slots : ∃ slots, r.2.2 = slots ++ out ∧ i + slots.length = index ∧
    (base ≤ lo → hi - base ≤ 65535 → index ≤ 65535 →
      Buffer.Nests i (lo - base).toNat (hi - base).toNat slots)

theorem startPos_sub {c : Record} {base : Nat} (h : base ≤ c.start) :
    c.startPos - base = (c.start - base).toNat := by
  unfold Record.startPos
  omega

theorem stopPos_sub {c : Record} {base : Nat} (h : base ≤ c.stop) :
    c.stopPos - base = (c.stop - base).toNat := by
  unfold Record.stopPos
  omega

theorem half_of_le {n : Nat} (h : n ≤ 65535) : half n = n := by
  unfold half
  omega

/-- The number of records that are copied. -/
def kept (d : BuildPlan) (seg : List Record) : Nat := seg.countP fun r => !d.drops r

/-- A record is left out or copied. -/
theorem length_eq_kept (d : BuildPlan) (seg : List Record) :
    seg.length = seg.countP d.drops + kept d seg := by
  rw [List.length_eq_countP_add_countP d.drops, kept]
  congr 2
  funext r
  cases d.drops r <;> rfl

section Copy

variable {base index i : Nat} {out : List Nat} {b : Builder} {c : Record}
  {inner below seg : List Record} {lo mid hi : Int}

/-- A node in front of what was copied from below it. -/
theorem Copied.node {r : Builder × Nat × List Nat}
    (h : Copied base c.start c.stop below (i + 4) index out r) (hle : c.start ≤ c.stop) :
    Copied base c.start c.stop below i index out
      (r.1, r.2.1 - 4, half c.id :: half ((c.startPos - base : Nat)) ::
        half ((c.stopPos - base : Nat)) :: half index :: r.2.2) := by
  obtain ⟨hreader, hindex, slots, hout, hlength, hnests⟩ := h
  refine ⟨hreader, ?_, half c.id :: half ((c.startPos - base : Nat)) ::
    half ((c.stopPos - base : Nat)) :: half index :: slots, ?_, ?_, ?_⟩
  · simp only [hindex]
    omega
  · simp only [hout, List.cons_append]
  · simp only [List.length_cons]
    omega
  · intro hbase hhi hslots
    have hinner := hnests hbase hhi hslots
    rw [startPos_sub hbase, stopPos_sub (Int.le_trans hbase hle), half_of_le (by omega),
      half_of_le (by omega), half_of_le hslots]
    have key : Buffer.Nests i (c.start - base).toNat (c.stop - base).toNat
        (half c.id :: (c.start - base).toNat :: (c.stop - base).toNat :: index :: (slots ++ [])) :=
      .node (Nat.le_refl _) (by omega) hinner (.nil (Nat.le_refl _))
    rwa [List.append_nil] at key

/-- What was copied before goes in front. -/
theorem Copied.append {j : Nat} {out' : List Nat} {below' : List Record}
    {r r' : Builder × Nat × List Nat} (h : Copied base mid hi below' j index out r)
    (hout : r.2.2 = out') (h' : Copied base lo mid below i j out' r') (hlo : lo ≤ mid)
    (hmid : mid ≤ hi) :
    Copied base lo hi below i index out r' := by
  obtain ⟨_, _, slots, hslots, hlength, hnests⟩ := h
  obtain ⟨hreader', hindex', slots', hslots', hlength', hnests'⟩ := h'
  refine ⟨hreader', hindex', slots' ++ slots, ?_, ?_, ?_⟩
  · rw [hslots', ← hout, hslots, List.append_assoc]
  · rw [List.length_append]
    omega
  · intro hbase hhi hfits
    refine (hnests' hbase (by omega) (by omega)).append ?_
    rw [hlength']
    exact hnests (by omega) hhi hfits

/-- What was copied may end later. -/
theorem Copied.mono {hi' : Int} {r : Builder × Nat × List Nat}
    (h : Copied base lo hi below i index out r) (hhi : hi ≤ hi') :
    Copied base lo hi' below i index out r := by
  obtain ⟨hreader, hindex, slots, hslots, hlength, hnests⟩ := h
  refine ⟨hreader, hindex, slots, hslots, hlength, fun hbase hroom hfits => ?_⟩
  exact (hnests hbase (by omega) hfits).mono (by omega)

theorem reader_mark (b : Builder) (r : Record) : (b.mark r).reader = b.reader := by
  unfold mark
  split
  · rfl
  · split <;> rfl

/-- A record that is left out is only noted. -/
theorem copyNodeF_of_drops {d : BuildPlan} {fuel : Nat} (h : d.drops b.reader.record = true)
    (hfuel : 0 < fuel) :
    copyNodeF d base fuel b index out = (b.next.mark b.reader.record, index, out) := by
  cases fuel with
  | zero => omega
  | succ fuel =>
      unfold copyNodeF
      simp only
      rw [if_neg]
      simp only [BuildPlan.drops, Bool.or_eq_true, decide_eq_true_eq] at h
      simp only [Bool.and_eq_true, decide_eq_true_eq]
      omega

/-- What copying a node with some fuel leaves. -/
def CopiesNode (d : BuildPlan) (base fuel : Nat) : Prop :=
  ∀ {c : Record} {inner below : List Record} {b : Builder} {index i : Nat} {out : List Nat},
    b.reader.Holds (c :: (inner ++ below)) → d.drops c = false → c.size = 4 * (inner.length + 1) →
    Nested (fun r => d.drops r = true) c.start c.stop inner → 2 * (inner.length + 1) ≤ fuel →
    index = i + 4 + 4 * kept d inner →
      Copied base c.start c.stop below i index out (copyNodeF d base fuel b index out)

/-- What copying a run with some fuel leaves. -/
def CopiesRun (d : BuildPlan) (base fuel : Nat) : Prop :=
  ∀ {seg below : List Record} {b : Builder} {lo hi : Int} {index i : Nat} {out : List Nat},
    b.reader.Holds (seg ++ below) → Nested (fun r => d.drops r = true) lo hi seg →
    2 * seg.length + 1 ≤ fuel → index = i + 4 * kept d seg →
      Copied base lo hi below i index out (copyRunF d base fuel (4 * below.length) b index out)

/-- Nothing is copied from a run that is used up. -/
theorem Copied.nil (hb : b.reader.Holds below) (hle : lo ≤ hi) (hindex : index = i) :
    Copied base lo hi below i index out (b, index, out) := by
  refine ⟨hb, hindex, [], rfl, hindex.symm, ?_⟩
  intro _ _ _
  exact .nil (by omega)

theorem copyNodeF_step {d : BuildPlan} {fuel : Nat} (hrun : CopiesRun d base fuel) :
    CopiesNode d base (fuel + 1) := by
  intro c inner below b index i out hb hdrops hsize hinner hfuel hindex
  obtain ⟨hrecord, hnext⟩ := hb.next
  have hkeep : (decide (0 ≤ c.size) && decide (c.id < d.repeatFrom)) = true := by
    simp only [BuildPlan.drops, Bool.or_eq_false_iff, decide_eq_false_iff_not] at hdrops
    simp only [Bool.and_eq_true, decide_eq_true_eq]
    omega
  unfold copyNodeF
  simp only [hrecord, hkeep, if_true]
  refine Copied.node ?_ hinner.le
  split
  · have hslots : b.next.reader.pos - (c.size.toNat - 4) = 4 * below.length := by
      have hpos := hnext.pos_eq
      rw [List.length_append] at hpos
      simp only [Builder.next]
      omega
    rw [hslots]
    exact hrun hnext hinner (by omega) (by omega)
  · -- nothing is below the node
    obtain rfl : inner = [] := List.eq_nil_of_length_eq_zero (by omega)
    exact .nil hnext hinner.le hindex

theorem copyRunF_step {d : BuildPlan} {fuel : Nat} (hnode : CopiesNode d base fuel)
    (hrun : CopiesRun d base fuel) : CopiesRun d base (fuel + 1) := by
  intro seg below b lo hi index i out hb hseg hfuel hindex
  have hpos := hb.pos_eq
  unfold copyRunF
  cases seg with
  | nil =>
      rw [if_pos (by rw [hpos]; simp)]
      exact .nil hb hseg.le hindex
  | cons c rest =>
      rw [List.cons_append] at hb hpos
      simp only [List.length_cons, List.length_append] at hpos hfuel
      obtain ⟨hrecord, hnext⟩ := hb.next
      rw [if_neg (by omega)]
      simp only
      cases hdrops : d.drops c with
      | true =>
          rw [copyNodeF_of_drops (by rw [hrecord]; exact hdrops) (by omega), hrecord]
          refine hrun ?_ hseg.tail (by omega) ?_
          · rw [reader_mark]
            exact hnext
          · rw [hindex, kept, List.countP_cons_of_neg (by simp [hdrops])]
            rfl
      | false =>
          rcases hseg.head_cases with ⟨hclear, _⟩ |
            ⟨inner, outer, rfl, _, hsize, hstop, hinner, houter⟩
          · rw [hdrops] at hclear
            cases hclear
          · have hcount : kept d (c :: (inner ++ outer)) = kept d outer + 1 + kept d inner := by
              unfold kept
              rw [List.countP_cons_of_pos (by simp [hdrops]), List.countP_append]
              omega
            rw [List.append_assoc] at hb
            simp only [List.length_append] at hfuel
            -- the node comes first, and its slots stand last
            have hcopied : Copied base c.start c.stop (outer ++ below) (i + 4 * kept d outer)
                index out (copyNodeF d base fuel b index out) :=
              hnode hb hdrops hsize hinner (by omega) (by omega)
            rw [hcopied.index_eq]
            refine (hcopied.mono hstop).append rfl ?_ houter.le (Int.le_trans hinner.le hstop)
            exact hrun hcopied.reader houter (by omega) rfl

/-- Copying a node, and a run of them. -/
theorem copy_spec (d : BuildPlan) (base fuel : Nat) :
    CopiesNode d base fuel ∧ CopiesRun d base fuel := by
  induction fuel with
  | zero =>
      constructor
      · intro _ _ _ _ _ _ _ _ _ _ _ hfuel
        omega
      · intro _ _ _ _ _ _ _ _ _ _ hfuel
        omega
  | succ fuel ih => exact ⟨copyNodeF_step ih.2, copyRunF_step ih.1 ih.2⟩

end Copy

/-- **The buffer of a run.** -/
theorem pack_spec {d : BuildPlan} {b : Builder} {run : Run} {levels minStart : Nat} {lo mid : Int}
    {stop : Nat} {seg below taken rest : List Record} (hb : b.reader.Holds (seg ++ below))
    (hrun : run.Covers d levels minStart lo stop seg taken rest mid) (hne : taken ≠ []) :
    ∃ buffer : Buffer, (pack d b run stop).2 = .packed buffer ∧ buffer.Sound ∧
      buffer.length = min (stop - run.start) maxWord ∧
      (pack d b run stop).1.reader.Holds (rest ++ below) := by
  obtain ⟨hsplit, hsize, hskip, htaken, hrest, hstart, -⟩ := hrun
  have hstart := hstart hne
  subst hsplit
  rw [List.append_assoc] at hb
  have hpos := hb.pos_eq
  have hcount := length_eq_kept d taken
  have hkept : run.size - run.skip = 0 + 4 * kept d taken := by omega
  have hslots : b.reader.pos - run.size = 4 * (rest ++ below).length := by
    simp only [List.length_append] at hpos ⊢
    omega
  have hle := hrest.le
  have hcopied : Copied run.start mid stop (rest ++ below) 0 (run.size - run.skip) []
      (copyRunF d run.start (2 * b.reader.pos + 2) (4 * (rest ++ below).length) b
        (run.size - run.skip) []) :=
    (copy_spec d run.start (2 * b.reader.pos + 2)).2 hb htaken
      (by simp only [List.length_append] at hpos; omega) hkept
  unfold pack
  simp only [hslots]
  generalize copyRunF d run.start (2 * b.reader.pos + 2) (4 * (rest ++ below).length) b
    (run.size - run.skip) [] = r at hcopied ⊢
  obtain ⟨hreader, hindex, slots, hout, hlength, hnests⟩ := hcopied
  rw [List.append_nil] at hout
  simp only [hindex, hout, List.replicate_zero, List.nil_append]
  refine ⟨_, rfl, ?_, rfl, hreader⟩
  rintro ⟨hsize, hlen⟩
  have hend := htaken.le
  simp only [Buffer.size, Buffer.make, List.size_toArray] at hsize hlen
  have hword : min (stop - run.start) maxWord = stop - run.start := by
    unfold maxWord at hlen ⊢
    omega
  have key := hnests (by omega) (by omega) (by omega)
  rw [show (mid - run.start : Int).toNat = 0 by omega,
    show ((stop : Int) - run.start).toNat = stop - run.start by omega] at key
  unfold Buffer.WellFormed Buffer.make
  simp only [hword]
  exact key

/-! ### Nodes without children -/

/-- Nodes, oldest first, that follow each other between two positions. -/
def InLine : Int → Int → List Record → Prop
  | lo, hi, [] => lo ≤ hi
  | lo, hi, c :: rest => lo ≤ c.start ∧ c.start ≤ c.stop ∧ InLine c.stop hi rest

section Flat

variable {d : BuildPlan} {lo hi : Int}

theorem InLine.le {nodes : List Record} (h : InLine lo hi nodes) : lo ≤ hi := by
  induction nodes generalizing lo with
  | nil => exact h
  | cons c rest ih =>
      obtain ⟨hlo, hc, hrest⟩ := h
      have := ih hrest
      omega

theorem InLine.inside {nodes : List Record} (h : InLine lo hi nodes) :
    ∀ c ∈ nodes, lo ≤ c.start ∧ c.stop ≤ hi := by
  induction nodes generalizing lo with
  | nil => simp
  | cons c rest ih =>
      obtain ⟨hlo, hc, hrest⟩ := h
      have hend := hrest.le
      refine List.forall_mem_cons.2 ⟨⟨hlo, hend⟩, fun x hx => ?_⟩
      have hin := ih hrest x hx
      omega

/-- Nodes end where the last of them ends. -/
theorem InLine.to_last {nodes : List Record} {last : Record} (h : InLine lo hi nodes)
    (hlast : nodes.getLast? = some last) : InLine lo last.stop nodes ∧ last.stop ≤ hi := by
  induction nodes generalizing lo with
  | nil => cases hlast
  | cons c rest ih =>
      obtain ⟨hlo, hc, hrest⟩ := h
      cases rest with
      | nil =>
          obtain rfl : c = last := by simpa using hlast
          exact ⟨⟨hlo, hc, Int.le_refl _⟩, hrest⟩
      | cons e rest =>
          rw [List.getLast?_cons_cons] at hlast
          obtain ⟨hline, hle⟩ := ih hrest hlast
          exact ⟨⟨hlo, hc, hline⟩, hle⟩

theorem InLine.mono_left {lo' : Int} {nodes : List Record} (h : InLine lo hi nodes)
    (hlo : lo' ≤ lo) : InLine lo' hi nodes := by
  cases nodes with
  | nil => exact Int.le_trans hlo h
  | cons c rest => exact ⟨Int.le_trans hlo h.1, h.2⟩

/-- What collecting leaves: it takes some of the newest records, and has found nodes among them that
follow each other, in front of those before. -/
structure Collected (d : BuildPlan) (levels : Nat) (lo hi : Int) (seg below nodes : List Record)
    (r : Builder × List Record) (taken rest : List Record) (mid : Int) : Prop where
  split : seg = taken ++ rest
  reader : r.1.reader.Holds (rest ++ below)
  forest : d.Forest levels lo mid rest
  inLine : InLine mid hi r.2
  sublist : r.2.reverse.Sublist (nodes.reverse ++ taken)

theorem Collected.length_le {levels : Nat} {seg below nodes taken rest : List Record}
    {r : Builder × List Record} {mid : Int}
    (h : Collected d levels lo hi seg below nodes r taken rest mid) :
    r.2.length ≤ nodes.length + taken.length := by
  have key := h.sublist.length_le
  rwa [List.length_reverse, List.length_append, List.length_reverse] at key

/-- A node with children is dropped. -/
theorem Collected.cons {levels : Nat} {seg below nodes taken rest : List Record}
    {r : Builder × List Record} {mid : Int}
    (h : Collected d levels lo hi seg below nodes r taken rest mid) (c : Record) :
    Collected d levels lo hi (c :: seg) below nodes r (c :: taken) rest mid := by
  refine ⟨?_, h.reader, h.forest, h.inLine, h.sublist.trans ?_⟩
  · rw [h.split, List.cons_append]
  · exact (List.Sublist.refl _).append (List.sublist_cons_self c taken)

/-- A node without children is found. -/
theorem Collected.found {levels : Nat} {seg below nodes taken rest : List Record}
    {r : Builder × List Record} {mid : Int} {c : Record}
    (h : Collected d levels lo hi seg below (c :: nodes) r taken rest mid) :
    Collected d levels lo hi (c :: seg) below nodes r (c :: taken) rest mid := by
  refine ⟨?_, h.reader, h.forest, h.inLine, ?_⟩
  · rw [h.split, List.cons_append]
  · have key := h.sublist
    rwa [List.reverse_cons, List.append_assoc] at key

/-- Nothing is collected. -/
theorem Collected.none {levels : Nat} {seg below nodes : List Record} {b : Builder} {mid : Int}
    (hb : b.reader.Holds (seg ++ below)) (hseg : d.Forest levels lo mid seg)
    (hnodes : InLine mid hi nodes) :
    Collected d levels lo hi seg below nodes (b, nodes) [] seg mid :=
  ⟨rfl, hb, hseg, hnodes, List.sublist_append_left _ _⟩

/-- Collecting takes nodes without children, in order. -/
theorem collectF_spec {levels : Nat} {below : List Record} (fuel : Nat) {b : Builder}
    {floor : Option Nat} {seg nodes : List Record} {mid : Int} (hb : b.reader.Holds (seg ++ below))
    (hseg : d.Forest levels lo mid seg) (hnodes : InLine mid hi nodes) :
    ∃ taken rest mid', Collected d levels lo hi seg below nodes
      (collectF d (4 * below.length) fuel b floor nodes) taken rest mid' := by
  induction fuel generalizing b floor seg nodes mid with
  | zero => exact ⟨[], seg, mid, .none hb hseg hnodes⟩
  | succ fuel ih =>
      unfold collectF
      have hpos := hb.pos_eq
      cases seg with
      | nil =>
          simp only [hpos, List.nil_append, Nat.le_refl, if_true]
          exact ⟨[], [], mid, .none hb hseg hnodes⟩
      | cons c rest =>
          rw [List.cons_append] at hb
          obtain ⟨hrecord, hnext⟩ := hb.next
          simp only [List.cons_append, List.length_cons, List.length_append] at hpos
          simp only [hrecord]
          rw [if_neg (by omega)]
          split
          · -- a node with children is dropped
            obtain ⟨taken, rest', mid', hcollected⟩ := ih (b := b.next) hnext hseg.tail hnodes
            exact ⟨c :: taken, rest', mid', hcollected.cons c⟩
          · split
            · -- a special record, or a node too far in front, ends the line
              exact ⟨[], c :: rest, mid, .none hb hseg hnodes⟩
            · rename_i hsmall hstop
              simp only [Bool.or_eq_true, decide_eq_true_eq, not_or] at hstop
              obtain ⟨inner, outer, rfl, _, hsize, hend, hinner, houter⟩ :=
                hseg.head_node (by omega)
              obtain rfl : inner = [] := List.eq_nil_of_length_eq_zero (by omega)
              have hline : InLine c.start hi (c :: nodes) :=
                ⟨Int.le_refl _, hinner.le, hnodes.mono_left hend⟩
              obtain ⟨taken, rest', mid', hcollected⟩ := ih (b := b.next) hnext houter hline
              exact ⟨c :: taken, rest', mid', hcollected.found⟩

theorem length_flatSlots (base index : Nat) (nodes : List Record) :
    (flatSlots base index nodes).length = 4 * nodes.length := by
  induction nodes generalizing index with
  | nil => rfl
  | cons c rest ih =>
      simp only [flatSlots, List.length_cons, ih]
      omega

theorem nests_flatSlots {base : Nat} (nodes : List Record) {index : Nat} (hbase : base ≤ lo)
    (h : InLine lo hi nodes) (hhi : hi - base ≤ 65535)
    (hindex : index + 4 * nodes.length ≤ 65535) :
    Buffer.Nests index (lo - base).toNat (hi - base).toNat (flatSlots base index nodes) := by
  induction nodes generalizing index lo with
  | nil =>
      have := h.le
      exact .nil (by omega)
  | cons c rest ih =>
      obtain ⟨hlo, hc, hrest⟩ := h
      have hend := hrest.le
      simp only [List.length_cons] at hindex
      unfold flatSlots
      rw [startPos_sub (by omega), stopPos_sub (by omega), half_of_le (by omega),
        half_of_le (by omega), half_of_le (n := index + 4) (by omega)]
      have key : Buffer.Nests index (lo - base).toNat (hi - base).toNat
          (half c.id :: (c.start - base).toNat :: (c.stop - base).toNat :: (index + 4) ::
            ([] ++ flatSlots base (index + 4) rest)) :=
        .node (by omega) rfl (.nil (by omega)) (ih (by omega) hrest (by omega))
      exact key

/-- **The buffer of nodes without children.** -/
theorem sound_flat {first last : Record} {nodes : List Record} (set : NodeSet)
    (h : InLine lo hi (first :: nodes)) (hlo : 0 ≤ lo)
    (hlast : (first :: nodes).getLast? = some last) :
    (Buffer.make (flatSlots first.startPos 0 (first :: nodes)).toArray
      (last.stopPos - first.startPos) set).Sound := by
  rintro ⟨hsize, hlength⟩
  obtain ⟨hline, _⟩ := h.to_last hlast
  obtain ⟨hstart, hfirst, hrest⟩ := hline
  have hend := hrest.le
  have hpos : (first.startPos : Int) = first.start := Record.startPos_eq (by omega)
  have hstop : last.stopPos - first.startPos = (last.stop - first.startPos).toNat :=
    stopPos_sub (by omega)
  simp only [Buffer.size, Buffer.make, List.size_toArray, length_flatSlots] at hsize hlength
  have hword : min (last.stopPos - first.startPos) maxWord = last.stopPos - first.startPos := by
    unfold maxWord at hlength ⊢
    omega
  have key : Buffer.Nests 0 (first.start - first.startPos).toNat
      (last.stop - first.startPos).toNat (flatSlots first.startPos 0 (first :: nodes)) :=
    nests_flatSlots (first :: nodes) (by omega) ⟨Int.le_refl _, hfirst, hrest⟩ (by omega) (by omega)
  rw [show (first.start - first.startPos : Int).toNat = 0 by omega, ← hstop] at key
  unfold Buffer.WellFormed Buffer.make
  simp only [hword]
  exact key

end Flat

end Builder

end IncrementalLR
