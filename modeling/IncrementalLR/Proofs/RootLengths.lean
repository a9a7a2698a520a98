/-
**The length of a root.**

A root that is given no length takes the end of its first child for one.  Children lie one after
the other, so that is the end of the last top-level node if the root has one child only, as when
all nodes go into one buffer, and else may be less.

Main definitions:

* `BuildPlan.lastStop` — where the last top-level node of records ends;
* `BuildPlan.IsCompact` — records that are one tree, or fit into one buffer.

Main results:

* `Builder.takeAllF_last` — the last child ends where the last top-level node does;
* `Tree.children_build_compact` — the root over compact records has one child at most;
* `Tree.length_build` — **a root with one child ends where its last top-level node does**;
* `Tree.length_build_two` — a root with two children that is too short.
-/

import IncrementalLR.Proofs.Overflows
import IncrementalLR.Proofs.Trails

set_option relaxedAutoImplicit false
set_option autoImplicit false

namespace IncrementalLR

/-! ### Lengths of nodes -/

/-- Balancing keeps the length that the node above the groups is given. -/
theorem Tree.length_balanceWith {ty : NodeType} {top inner : List (Nat × Tree) → Nat → Tree}
    {length : Nat} (htop : ∀ cs, (top cs length).length = length) (cs : List (Nat × Tree)) :
    (balanceWith ty top inner cs length).length = length := by
  unfold balanceWith
  rw [groupF]
  exact htop _

theorem length_makeRepeat {length : Nat} (ty : NodeType) (contextHash : Nat)
    (cs : List (Nat × Tree)) (h : length ≤ maxWord) :
    (makeRepeat ty contextHash cs length).length = length := by
  rcases makeRepeat_cases ty contextHash cs length with ⟨lookAhead, heq⟩ | ⟨pos, t, -, hlen, heq⟩
  · rw [heq]
    exact Nat.min_eq_left h
  · rw [heq]
    exact hlen

namespace Builder

/-- A node is as long as its record says. -/
theorem Family.length_node (f : Family) (p : Parent) (h : p.stop - p.start ≤ maxWord) :
    (f.node p).length = p.stop - p.start := by
  unfold Family.node
  split
  · exact Tree.length_balanceWith (fun cs => length_makeRepeat _ _ cs h) _
  · exact Nat.min_eq_left h

end Builder

/-! ### The end of the last node -/

namespace BuildPlan

variable {d : BuildPlan}

/-- Where the last top-level node of records ends, or the start of the tree if there is none. -/
def lastStop (d : BuildPlan) : List Record → Nat
  | [] => d.start
  | r :: rest =>
      if r.size = Record.reuseSize then r.startPos + ((d.reusedTree r).map Tree.length).getD 0
      else if r.size < 0 then d.lastStop rest
      else r.stopPos

theorem lastStop_reuse {r : Record} (h : r.size = Record.reuseSize) (rest : List Record) :
    d.lastStop (r :: rest) = r.startPos + ((d.reusedTree r).map Tree.length).getD 0 := by
  rw [lastStop, if_pos h]

theorem lastStop_note {r : Record} (h : r.IsNote) (rest : List Record) :
    d.lastStop (r :: rest) = d.lastStop rest := by
  rw [lastStop, if_neg h.ne_reuse, if_pos h.size_lt]

theorem lastStop_node {r : Record} (h : 0 ≤ r.size) (rest : List Record) :
    d.lastStop (r :: rest) = r.stopPos := by
  rw [lastStop, if_neg (by unfold Record.reuseSize; omega), if_neg (by omega)]

theorem lastStop_le {levels hi : Nat} {seg : List Record} (h : d.Forest levels d.start hi seg) :
    d.lastStop seg ≤ hi := by
  induction seg with
  | nil => exact Int.ofNat_le.1 h.le
  | cons c rest ih =>
      rcases h.head_cases with ⟨hnote, hrest⟩ | ⟨hreuse, hstart, htree, hrest⟩ |
        ⟨m, inner, outer, -, rfl, -, hslots, hstop, hinner, houter⟩
      · rw [lastStop_note hnote]
        exact ih hrest
      · have hlo := hrest.le
        rw [lastStop_reuse hreuse]
        unfold Record.startPos
        cases htaken : d.reusedTree c with
        | none =>
            simp only [Option.map_none, Option.getD_none]
            omega
        | some t =>
            have hroom := (htree t htaken).2
            simp only [Option.map_some, Option.getD_some]
            omega
      · have hlo := houter.le
        have hrange := hinner.le
        rw [lastStop_node (by omega)]
        unfold Record.stopPos
        omega

/-- Records of a single top-level node, or of nodes that start so late that they fit into one buffer
with the last one. -/
def IsCompact (d : BuildPlan) : List Record → Prop
  | [] => True
  | c :: rest => c.size = 4 * (rest.length + 1) ∨
      ∀ r ∈ c :: rest, 0 ≤ r.size ∧ c.stopPos - d.maxBuffer ≤ r.startPos

theorem IsCompact.size_nonneg {c : Record} {rest : List Record} (h : d.IsCompact (c :: rest)) :
    0 ≤ c.size := by
  rcases h with h | h
  · omega
  · exact (h c List.mem_cons_self).1

end BuildPlan

namespace Builder

variable {d : BuildPlan}

/-! ### Children of the root -/

/-- A node that is taken is put in front of the children. -/
theorem takeNodeF_suffix {fuel parentStart minPos depth : Nat} {inRepeat : Int}
    {cs : List (Nat × Tree)} {b : Builder} {r : List (Nat × Tree) × Builder}
    (h : takeNodeF d fuel parentStart minPos inRepeat depth cs b = .ok r) : cs <:+ r.1 := by
  cases fuel with
  | zero =>
      obtain rfl := Except.ok.inj h
      exact List.suffix_refl _
  | succ fuel =>
      rcases takeNodeF_cases h with h | ⟨-, ⟨run, -, rfl⟩ | ⟨ty, r', -, -, rfl⟩⟩
      · unfold takeMarker at h
        simp only at h
        split at h
        · split at h
          · obtain rfl := Except.ok.inj h
            exact List.suffix_cons _ _
          · cases h
        · split at h
          · obtain rfl := Except.ok.inj h
            exact List.suffix_refl _
          · cases h
      · exact List.suffix_cons _ _
      · exact List.suffix_cons _ _

theorem takeAllF_suffix (fuel : Nat) {cs cs' : List (Nat × Tree)} {b : Builder}
    (h : takeAllF d fuel cs b = .ok cs') : cs <:+ cs' := by
  induction fuel generalizing cs b with
  | zero =>
      obtain rfl := Except.ok.inj h
      exact List.suffix_refl _
  | succ fuel ih =>
      rw [takeAllF] at h
      split at h
      · obtain rfl := Except.ok.inj h
        exact List.suffix_refl _
      · obtain ⟨r, htake, h⟩ := bind_ok h
        exact (takeNodeF_suffix htake).trans (ih h)

/-- Nothing is taken past the first slot. -/
theorem takeAllF_of_le (fuel : Nat) (cs : List (Nat × Tree)) {b : Builder}
    (h : b.reader.pos ≤ d.bufferStart) : takeAllF d fuel cs b = .ok cs := by
  cases fuel with
  | zero => rfl
  | succ fuel => rw [takeAllF, if_pos h]

/-- A child that ends at a position of the text. -/
def EndsAt (d : BuildPlan) (stop : Nat) (c : Nat × Tree) : Prop :=
  c.1 + c.2.length = stop - d.start

section Forest

variable {levels hi fuel : Nat} {c : Record} {rest below : List Record} {cs : List (Nat × Tree)}
  {b : Builder} {r : List (Nat × Tree) × Builder}

/-- A special record is a mark, or stands for an older tree that ends where it says. -/
theorem takeMarker_end (hb : b.reader.Holds (c :: rest ++ below)) (hword : hi ≤ d.start + maxWord)
    (hseg : d.Forest levels d.start hi (c :: rest)) (h : takeMarker d d.start cs b = .ok r) :
    (c.IsNote ∧ r.1 = cs ∧ r.2.reader.Holds (rest ++ below)) ∨
      ∃ child, r.1 = child :: cs ∧ EndsAt d (d.lastStop (c :: rest)) child := by
  obtain ⟨hrecord, hnext⟩ := hb.next
  unfold takeMarker at h
  simp only [hrecord] at h
  split at h
  · rename_i hreuse
    split at h
    · rename_i t ht
      obtain rfl := Except.ok.inj h
      rcases hseg.head_cases with ⟨hnote, -⟩ | ⟨-, hstart, htree, hrest⟩ |
        ⟨_, inner, outer, _, _, _, hsize, _⟩
      · exact absurd hreuse hnote.ne_reuse
      · have htree' : d.reusedTree c = some t := ht
        have hlo := hrest.le
        have hstartPos : (c.startPos : Int) = c.start := Record.startPos_eq (by omega)
        have hplace : Tree.word (c.startPos - d.start) = c.startPos - d.start :=
          Tree.word_of_le (by omega)
        refine Or.inr ⟨_, rfl, ?_⟩
        simp only [EndsAt, hplace, BuildPlan.lastStop_reuse hreuse, htree', Option.map_some,
          Option.getD_some]
        omega
      · unfold Record.reuseSize at hreuse
        omega
    · cases h
  · split at h
    · rename_i hnote
      obtain rfl := Except.ok.inj h
      rw [Bool.or_eq_true, decide_eq_true_eq, decide_eq_true_eq] at hnote
      refine Or.inl ⟨hnote, rfl, ?_⟩
      rw [reader_mark]
      exact hnext
    · cases h

/-- Taking the newest record takes a mark, or a child that ends where the last node does. -/
theorem takeNodeF_end (hb : b.reader.Holds (c :: rest ++ below)) (hword : hi ≤ d.start + maxWord)
    (hseg : d.Forest levels d.start hi (c :: rest))
    (h : takeNodeF d (fuel + 1) d.start (4 * below.length) (-1) 0 cs b = .ok r) :
    (c.IsNote ∧ r.1 = cs ∧ r.2.reader.Holds (rest ++ below)) ∨
      ∃ child, r.1 = child :: cs ∧ EndsAt d (d.lastStop (c :: rest)) child := by
  obtain ⟨hrecord, -⟩ := hb.next
  rcases takeNodeF_cases h with h | ⟨hsize, htaken⟩
  · exact takeMarker_end hb hword hseg h
  rw [hrecord] at hsize htaken
  obtain ⟨m, inner, outer, rfl, rfl, hid, hslots, hstop, hinner, houter⟩ := hseg.head_level hsize
  have hlo := houter.le
  have hrange := hinner.le
  have hstopPos : (c.stopPos : Int) = c.stop := Record.stopPos_eq (by omega)
  have hstartPos : (c.startPos : Int) = c.start := Record.startPos_eq (by omega)
  rcases htaken with ⟨run, hrun, rfl⟩ | ⟨ty, r', -, -, rfl⟩
  · -- the run ends with the last node
    have hseg' : d.Forest (m + 1) d.start c.stopPos (c :: (inner ++ outer)) := by
      rw [hstopPos]
      exact (hseg.head_tree hslots).append houter
    obtain ⟨taken, rest, mid, hne, hcovers⟩ :=
      findRun_covers (by omega) (Or.inl rfl) hb hseg' (by simpa using by omega) hrun
    have hmid := hcovers.start_eq hne
    have hbefore := hcovers.forest_rest.le
    have hend := hcovers.nested_taken.le
    have hplace : Tree.word (run.start - d.start) = run.start - d.start :=
      Tree.word_of_le (by omega)
    refine Or.inr ⟨_, rfl, ?_⟩
    simp only [EndsAt, hplace, BuildPlan.lastStop_node hsize, pack, Tree.length, Buffer.make]
    omega
  · have hplace : Tree.word (c.startPos - d.start) = c.startPos - d.start :=
      Tree.word_of_le (by omega)
    refine Or.inr ⟨_, rfl, ?_⟩
    simp only [EndsAt, hplace, BuildPlan.lastStop_node hsize]
    rw [Family.length_node _ _ (by simp only [parentAt, hrecord]; omega)]
    simp only [parentAt, hrecord]
    omega

/-- **The last child of the root ends where the last top-level node does**; there are no children if
there is no such node. -/
theorem takeAllF_last (hstart : d.bufferStart = 4 * below.length) (fuel : Nat) {hi : Nat}
    {seg : List Record} {cs' : List (Nat × Tree)} {b : Builder}
    (hb : b.reader.Holds (seg ++ below)) (hfuel : seg.length ≤ fuel)
    (hword : hi ≤ d.start + maxWord) (hseg : d.Forest levels d.start hi seg)
    (h : takeAllF d fuel [] b = .ok cs') :
    cs' = [] ∧ d.lastStop seg = d.start ∨
      ∃ before child, cs' = before ++ [child] ∧ EndsAt d (d.lastStop seg) child := by
  induction fuel generalizing seg b with
  | zero =>
      obtain rfl := Except.ok.inj h
      obtain rfl : seg = [] := List.eq_nil_of_length_eq_zero (by omega)
      exact Or.inl ⟨rfl, rfl⟩
  | succ fuel ih =>
      have hpos := hb.pos_eq
      rw [takeAllF, hstart] at h
      cases seg with
      | nil =>
          rw [if_pos (by rw [hpos]; simp)] at h
          obtain rfl := Except.ok.inj h
          exact Or.inl ⟨rfl, rfl⟩
      | cons c rest =>
          simp only [List.length_append, List.length_cons] at hpos hfuel
          rw [if_neg (by omega)] at h
          obtain ⟨r, htake, h⟩ := bind_ok h
          rcases takeNodeF_end hb hword hseg htake with ⟨hnote, hcs, hreader⟩ | ⟨child, hcs, hend⟩
          · rw [BuildPlan.lastStop_note hnote]
            rw [hcs] at h
            exact ih hreader (by omega) hseg.tail h
          · -- all that is taken later is put in front
            rw [hcs] at h
            obtain ⟨before, rfl⟩ := takeAllF_suffix fuel h
            exact Or.inr ⟨before, child, rfl, hend⟩

/-! ### Records that make one child -/

/-- Looking on over the records adds to the run. -/
theorem scanF_mono (d : BuildPlan) (minPos minStart : Nat) (inRepeat : Int) (fuel : Nat)
    {size : Nat} (r : Reader) (whole complete : Run) (h : size ≤ whole.size) :
    size ≤ (scanF d minPos minStart inRepeat fuel r whole complete).1.size := by
  induction fuel generalizing r whole complete with
  | zero => exact h
  | succ fuel ih =>
      rw [scanF]
      simp only
      split
      · exact h
      · split
        · exact ih _ _ _ (Nat.le_add_right_of_le h)
        · split
          · exact h
          · split
            · exact h
            · exact ih _ _ _ (Nat.le_add_right_of_le h)

/-- Looking over the records adds nothing, or the newest node with all that is below it. -/
theorem scanF_first (minPos minStart fuel : Nat) {r : Reader} (hid : 0 ≤ r.record.id) :
    (scanF d minPos minStart (-1) fuel r {} {}).1.size = 0 ∨
      r.record.size.toNat ≤ (scanF d minPos minStart (-1) fuel r {} {}).1.size := by
  cases fuel with
  | zero => exact Or.inl rfl
  | succ fuel =>
      have hother : ¬ (decide (r.record.id = -1) && decide (0 ≤ r.record.size)) = true := by
        simp only [Bool.and_eq_true, decide_eq_true_eq]
        omega
      rw [scanF]
      simp only
      rw [if_neg hother]
      split
      · exact Or.inl rfl
      · split
        · exact Or.inl rfl
        · split
          · exact Or.inl rfl
          · exact Or.inr (scanF_mono _ _ _ _ _ _ _ _ (Nat.le_add_left _ _))

/-- Outside of repetitions the whole run is taken, if it is worth it. -/
theorem findRun_eq (r : Reader) (minPos : Nat) :
    findRun d r minPos (-1) =
      if 4 < (scanF d minPos (r.record.stopPos - d.maxBuffer) (-1) r.pos r {} {}).1.size then
        some (scanF d minPos (r.record.stopPos - d.maxBuffer) (-1) r.pos r {} {}).1
      else none := by
  simp [findRun]

/-- A run that is found takes the newest node with all that is below it. -/
theorem size_le_findRun {r : Reader} {minPos : Nat} {run : Run} (hid : 0 ≤ r.record.id)
    (h : findRun d r minPos (-1) = some run) : r.record.size.toNat ≤ run.size := by
  rw [findRun_eq] at h
  split at h
  · obtain rfl := Option.some.inj h
    exact (scanF_first _ _ _ hid).resolve_left (by omega)
  · cases h

/-- Passing over nodes only goes on to the end. -/
theorem passF_isSome {below : List Record} (seg : List Record) (fuel : Nat) {r : Reader}
    {skip : Nat} (hr : r.Holds (seg ++ below)) (hnodes : ∀ c ∈ seg, 0 ≤ c.size) :
    (passF d (4 * below.length) fuel r skip).isSome := by
  induction seg generalizing fuel r skip with
  | nil =>
      cases fuel with
      | zero => rfl
      | succ fuel =>
          rw [passF, if_pos (by rw [hr.pos_eq]; simp)]
          rfl
  | cons c rest ih =>
      cases fuel with
      | zero => rfl
      | succ fuel =>
          obtain ⟨hrecord, hnext⟩ := hr.next
          rw [List.forall_mem_cons] at hnodes
          have hpos := hr.pos_eq
          simp only [List.length_append, List.length_cons] at hpos
          rw [passF, if_neg (by omega), hrecord, if_neg (by omega)]
          exact ih fuel hnext hnodes.2

/-- Looking over nodes that all start late enough takes them all. -/
theorem scanF_all {minStart : Nat} {lo : Int} (fuel : Nat) {rs : Reader} {whole complete : Run}
    {seg : List Record} {hi : Int} (hr : rs.Holds (seg ++ below))
    (hfuel : seg.length ≤ fuel) (hseg : d.Forest levels lo hi seg)
    (hnodes : ∀ c ∈ seg, 0 ≤ c.size ∧ minStart ≤ c.startPos) :
    (scanF d (4 * below.length) minStart (-1) fuel rs whole complete).1.size =
      whole.size + 4 * seg.length := by
  induction fuel generalizing rs whole complete seg hi with
  | zero =>
      obtain rfl : seg = [] := List.eq_nil_of_length_eq_zero (by omega)
      rfl
  | succ fuel ih =>
      have hpos := hr.pos_eq
      cases seg with
      | nil =>
          rw [scanF]
          simp only [hpos, List.nil_append, Nat.le_refl, if_true]
          rfl
      | cons c rest =>
          obtain ⟨hrecord, hnext⟩ := hr.next
          simp only [List.length_append, List.length_cons] at hpos hfuel
          obtain ⟨hsize, hstart⟩ := hnodes c List.mem_cons_self
          obtain ⟨inner, outer, rfl, hid, hslots, -, -, houter⟩ := hseg.head_node hsize
          rw [List.append_eq, List.append_assoc] at hnext
          simp only [List.length_append] at hpos hfuel
          have hbelow : rs.pos - c.size.toNat = 4 * (outer ++ below).length := by
            rw [List.length_append]
            omega
          have hinner : ∀ x ∈ inner, 0 ≤ x.size := fun x hx =>
            (hnodes x (List.mem_cons_of_mem _ (List.mem_append_left _ hx))).1
          have hsome : (passF d (4 * (outer ++ below).length) rs.pos rs.next
              (if d.repeatFrom ≤ c.id then 4 else 0)).isSome :=
            passF_isSome inner rs.pos hnext hinner
          obtain ⟨⟨rs', skipped⟩, hpass⟩ := Option.isSome_iff_exists.1 hsome
          have hr' := (passF_holds inner rs.pos hnext (by omega) hpass).1
          rw [scanF]
          simp only [hrecord]
          rw [if_neg (by omega), if_neg (by simp; omega), if_neg (by simp; omega), hbelow, hpass]
          simp only
          rw [ih hr' (by omega) houter fun x hx =>
            hnodes x (List.mem_cons_of_mem _ (List.mem_append_right _ hx))]
          simp only [List.length_cons, List.length_append]
          omega

/-- The run that is found in compact records takes them all; none is found only if there is nothing
but one node with what is below it. -/
theorem findRun_compact (hb : b.reader.Holds (c :: rest ++ below))
    (hseg : d.Forest levels d.start hi (c :: rest)) (hcompact : d.IsCompact (c :: rest)) :
    (∀ run, findRun d b.reader (4 * below.length) (-1) = some run →
        4 * (rest.length + 1) ≤ run.size) ∧
      ((c.stopPos - c.startPos ≤ d.maxBuffer →
          findRun d b.reader (4 * below.length) (-1) = none) →
        c.size = 4 * (rest.length + 1)) := by
  obtain ⟨hrecord, -⟩ := hb.next
  have hpos := hb.pos_eq
  simp only [List.length_append, List.length_cons] at hpos
  obtain ⟨m, inner, outer, -, rfl, hid, hslots, -, -, -⟩ := hseg.head_level hcompact.size_nonneg
  rcases hcompact with hsingle | hclose
  · refine ⟨fun run hrun => ?_, fun _ => hsingle⟩
    have hsize := size_le_findRun (by rw [hrecord]; exact hid) hrun
    rw [hrecord] at hsize
    omega
  · have hall : (scanF d (4 * below.length) (c.stopPos - d.maxBuffer) (-1) b.reader.pos b.reader {}
        {}).1.size = 0 + 4 * (c :: (inner ++ outer)).length :=
      scanF_all b.reader.pos hb (by simp only [List.length_cons]; omega) hseg hclose
    rw [findRun_eq, hrecord, hall]
    simp only [List.length_cons, List.length_append]
    refine ⟨fun run hrun => ?_, fun hnone => ?_⟩
    · split at hrun
      · obtain rfl := Option.some.inj hrun
        rw [hall]
        simp
      · cases hrun
    · have hnone := hnone (by have := (hclose c List.mem_cons_self).2; omega)
      split at hnone
      · cases hnone
      · omega

/-- **Compact records are taken at once.** -/
theorem takeNodeF_compact (hb : b.reader.Holds (c :: rest ++ below))
    (hfuel : 2 * rest.length < fuel) (hword : hi ≤ d.start + maxWord)
    (hseg : d.Forest levels d.start hi (c :: rest)) (hcompact : d.IsCompact (c :: rest))
    (h : takeNodeF d (fuel + 1) d.start (4 * below.length) (-1) 0 cs b = .ok r) :
    r.2.reader.Holds below := by
  obtain ⟨hrecord, hnext⟩ := hb.next
  have hsize := hcompact.size_nonneg
  have hpos := hb.pos_eq
  obtain ⟨hrun, hnode⟩ := findRun_compact hb hseg hcompact
  obtain ⟨m, inner, outer, rfl, rfl, hid, hslots, hstop, hinner, houter⟩ := hseg.head_level hsize
  have hlo := houter.le
  have hrange := hinner.le
  have hstopPos : (c.stopPos : Int) = c.stop := Record.stopPos_eq (by omega)
  have hstartPos : (c.startPos : Int) = c.start := Record.startPos_eq (by omega)
  rcases takeNodeF_cases h with h | ⟨-, ⟨run, hfound, rfl⟩ | ⟨ty, r', hnone, htake, rfl⟩⟩
  · -- a node is no special record
    unfold takeMarker Record.reuseSize Record.contextSize Record.lookAheadSize at h
    simp only [hrecord] at h
    rw [if_neg (by omega), if_neg (by simp only [Bool.or_eq_true, decide_eq_true_eq]; omega)] at h
    cases h
  · have hseg' : d.Forest (m + 1) d.start c.stopPos (c :: (inner ++ outer)) := by
      rw [hstopPos]
      exact (hseg.head_tree hslots).append houter
    obtain ⟨taken, left, mid, hne, hcovers⟩ :=
      findRun_covers (by omega) (Or.inl rfl) hb hseg' (by simpa using by omega) hfound
    obtain ⟨-, -, -, -, hreader⟩ := pack_spec hb hcovers hne
    have hlength : (inner ++ outer).length + 1 = taken.length + left.length := by
      rw [← List.length_append, ← hcovers.split, List.length_cons]
    have hlong := hrun run hfound
    rw [hcovers.size_eq] at hlong
    obtain rfl : left = [] := List.eq_nil_of_length_eq_zero (by omega)
    rw [hrecord]
    exact hreader
  · rw [hrecord] at hnone
    have hsingle := hnode hnone
    simp only [List.length_append, List.length_cons] at hfuel hsingle hpos
    obtain rfl : outer = [] := List.eq_nil_of_length_eq_zero (by omega)
    have hbelow : b.reader.pos - b.reader.record.size.toNat = 4 * below.length := by
      rw [hrecord]
      simp only [List.length_nil] at hpos
      omega
    rw [hbelow] at htake
    rw [List.append_nil] at hnext
    have hforest : d.Forest m (parentAt d b ty 0).start (parentAt d b ty 0).stop inner := by
      simp only [parentAt, hrecord, hstartPos, hstopPos]
      exact hinner
    refine ((take_spec d fuel).2 hnext ?_ hforest (by omega) (repeat_cases d _) (.start ?_)
      htake).1
    · simp only [parentAt, hrecord]
      omega
    · simp only [parentAt, hrecord]
      omega

end Forest

end Builder

/-! ### Trees -/

namespace Tree

variable {d : BuildPlan} {levels hi : Nat} {slots : List Int} {seg : List Record} {t : Tree}

/-- **The root over compact records has one child at most.** -/
theorem children_build_compact (hcarries : d.Carries levels hi slots seg)
    (hcompact : d.IsCompact seg) (h : Tree.build d slots = .ok t) : t.children.length ≤ 1 := by
  obtain ⟨_, hok, h⟩ := bind_ok h
  obtain ⟨below, hholds, hstart⟩ := hcarries.holds hok
  obtain ⟨ty, cs, -, htake, rfl⟩ := exists_of_buildFrom h
  rw [children_make]
  have hpos := hholds.pos_eq
  rw [Builder.takeAllF, hstart] at htake
  cases seg with
  | nil =>
      rw [if_pos (by simp [hpos])] at htake
      obtain h := Except.ok.inj htake
      simp [← h]
  | cons c rest =>
      simp only [List.length_append, List.length_cons] at hpos
      simp only at htake
      rw [if_neg (by omega)] at htake
      obtain ⟨r, hnode, htake⟩ := bind_ok htake
      have hreader := Builder.takeNodeF_compact (b := { reader := .ofSlots slots }) hholds
        (by omega) hcarries.hi_le hcarries.forest hcompact hnode
      have hend := Builder.takeNodeF_end (b := { reader := .ofSlots slots }) hholds hcarries.hi_le
        hcarries.forest hnode
      -- nothing is left
      rw [Builder.takeAllF_of_le _ _ (Nat.le_of_eq (by rw [hreader.pos_eq, hstart]))] at htake
      rw [← Except.ok.inj htake]
      rcases hend with ⟨hnote, hcs, -⟩ | ⟨child, hcs, -⟩
      · simp [hcs]
      · simp [hcs]

/-- **A root with one child ends where its last top-level node does**, so that its child lies inside
of it, if it is given no length. -/
theorem length_build (hcarries : d.Carries levels hi slots seg) (hlength : d.length = none)
    (h : Tree.build d slots = .ok t) (hone : t.children.length ≤ 1) :
    t.length = d.lastStop seg - d.start ∧ ∀ c ∈ t.children, c.1 + c.2.length ≤ t.length := by
  obtain ⟨_, hok, h⟩ := bind_ok h
  obtain ⟨below, hholds, hstart⟩ := hcarries.holds hok
  obtain ⟨ty, cs, -, htake, rfl⟩ := exists_of_buildFrom h
  have hpos := hholds.pos_eq
  rw [List.length_append] at hpos
  rw [children_make] at hone
  rw [hlength, Option.getD_none, length_make, children_make]
  have hlast := Builder.takeAllF_last hstart _ (b := { reader := .ofSlots slots }) hholds
    (by omega) hcarries.hi_le hcarries.forest htake
  rcases hlast with ⟨hnone, hstop⟩ | ⟨before, child, hcs, hend⟩
  · rw [hnone, hstop]
    simp [rootLength]
  · rw [hcs, List.length_append, List.length_singleton] at hone
    obtain rfl : before = [] := List.eq_nil_of_length_eq_zero (by omega)
    have hle := BuildPlan.lastStop_le hcarries.forest
    have hroom := hcarries.hi_le
    rw [List.nil_append] at hcs
    have hroot : min (rootLength cs) maxWord = d.lastStop seg - d.start := by
      rw [hcs, rootLength, List.head?_cons, Option.map_some, Option.getD_some, hend]
      omega
    rw [hroot, hcs]
    exact ⟨rfl, List.forall_mem_singleton.2 (Nat.le_of_eq hend)⟩

/-- The root of a list of items, which are below one node of a repetition, ends where that node
does. -/
theorem length_build_list :
    listPlan.Carries (Outline.depthAll listForest) 32 (Outline.slots listForest)
        (Outline.postorderAll listForest).reverse ∧ listPlan.length = none ∧
      ∃ t, Tree.build listPlan (Outline.slots listForest) = .ok t ∧ t.children.length ≤ 1 ∧
        t.length = listPlan.lastStop (Outline.postorderAll listForest).reverse - listPlan.start ∧
          ∀ c ∈ t.children, c.1 + c.2.length ≤ t.length := by
  have hcarries : listPlan.Carries (Outline.depthAll listForest) 32 (Outline.slots listForest)
      (Outline.postorderAll listForest).reverse := by
    refine Outline.carries_slots rfl ?_ (by decide)
    simp [listForest, Outline.InOrder, listPlan]
  have hcompact : listPlan.IsCompact (Outline.postorderAll listForest).reverse :=
    Or.inl (by decide +kernel)
  have heval : (Tree.build listPlan (Outline.slots listForest)).toOption.any (fun _ => true) =
      true := by
    decide +kernel
  obtain ⟨t, hbuild, -⟩ := exists_ok_of_any heval
  have hone := children_build_compact hcarries hcompact hbuild
  exact ⟨hcarries, rfl, t, hbuild, hone, length_build hcarries rfl hbuild hone⟩

/-- Two items, one after the other. -/
def pairForest : List (Outline Nat) := [.node 1 0 5 [], .node 1 5 10 []]

/-- A plan with buffers that are shorter than these items. -/
def pairPlan : BuildPlan := { itemPlan with maxBuffer := 4 }

/-- **A root with two children that is too short**: its last item ends at 10, and lies outside of
the root, which ends at 5. -/
theorem length_build_two :
    pairPlan.Carries (Outline.depthAll pairForest) 10 (Outline.slots pairForest)
        (Outline.postorderAll pairForest).reverse ∧ pairPlan.length = none ∧
      pairPlan.lastStop (Outline.postorderAll pairForest).reverse - pairPlan.start = 10 ∧
      ∃ t, Tree.build pairPlan (Outline.slots pairForest) = .ok t ∧ t.length = 5 ∧
        t.children.map (fun c => (c.1, c.2.length)) = [(0, 5), (5, 5)] := by
  refine ⟨Outline.carries_slots rfl ?_ (by decide), rfl, by decide +kernel, ?_⟩
  · simp [pairForest, Outline.InOrder, pairPlan, itemPlan]
  have heval : (Tree.build pairPlan (Outline.slots pairForest)).toOption.any
      (fun t => t.length = 5 ∧ t.children.map (fun c => (c.1, c.2.length)) = [(0, 5), (5, 5)]) =
        true := by
    decide +kernel
  obtain ⟨t, hbuild, heval⟩ := exists_ok_of_any heval
  exact ⟨t, hbuild, of_decide_eq_true heval⟩

end Tree

end IncrementalLR
