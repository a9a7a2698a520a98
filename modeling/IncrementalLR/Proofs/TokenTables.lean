/-
**Token tables describe their states.**

The states of a token automaton stand one behind the other in the table, each with the numbers of
its entries in front, so that what a state accepts and where its edges lead can be read off the
slots at its offset.  The edges of a state are sorted when they are written, and do not overlap, so
that halving the rest finds the one edge that holds a byte.  The edge for the end of the input is
written as one more range behind all others, which no byte reaches.

Main definitions:

* `tokenOffset` — where a token state stands;
* `TokenState.rows` — the edges as they are written;
* `TokenStatesFit` — the token states whose table can be read back.

Main results:

* `holdsAt_tokenSlots` — every state stands at its offset;
* `Group.acceptPairsF_eq` — the accepted terms are read back;
* `Group.edgeFor_spec`, `Group.edgeForEnd_eq` — **the edge of a byte and of the end are found**.
-/

import IncrementalLR.Lexer.Group
import IncrementalLR.Proofs.Layouts

set_option relaxedAutoImplicit false
set_option autoImplicit false

namespace IncrementalLR

/-! ### Where token states stand -/

/-- The number of slots in front of a token state. -/
def tokenOffset (states : List TokenState) (id : Nat) : Nat :=
  (states.take id).foldr (fun s offset => s.size + offset) 0

theorem tokenOffset_zero (states : List TokenState) : tokenOffset states 0 = 0 := rfl

theorem tokenOffset_cons_succ (s : TokenState) (states : List TokenState) (id : Nat) :
    tokenOffset (s :: states) (id + 1) = s.size + tokenOffset states id := rfl

theorem getElem?_tokenOffsets {states : List TokenState} {id : Nat} {s : TokenState}
    (h : states[id]? = some s) (offset : Nat) :
    (tokenOffsets offset states)[id]? = some ((offset + tokenOffset states id) % 65536) := by
  induction states generalizing id offset with
  | nil => cases h
  | cons first rest ih =>
      cases id with
      | zero => rfl
      | succ id =>
          rw [List.getElem?_cons_succ] at h
          rw [tokenOffsets, List.getElem?_cons_succ, ih h, tokenOffset_cons_succ, Nat.add_assoc]

/-! ### The edges of a state -/

namespace TokenEdge

/-- Whether an edge is for a byte. -/
def Holds (e : TokenEdge) (byte : Nat) : Prop := e.first ≤ byte ∧ byte < e.bound

/-- The slots of an edge. -/
def slots (e : TokenEdge) (target : Nat → Nat) : List Nat :=
  [e.first, if 65536 ≤ e.bound then 0 else e.bound, target e.target]

end TokenEdge

namespace TokenState

/-- The edges as they are written: by their first bytes, and the edge for the end behind them. -/
def rows (s : TokenState) : List TokenEdge :=
  (s.edges.mergeSort fun a b => a.first ≤ b.first) ++
    s.eof.toList.map fun t => ⟨listEnd, 65536, t⟩

theorem length_rows (s : TokenState) :
    s.rows.length = s.edges.length + s.eof.toList.length := by
  simp [rows]

theorem slots_eq (s : TokenState) (offset : Nat) (target : Nat → Nat) :
    s.slots offset target =
      [s.groupMask, (offset + 3 + s.accept.length * 2) % 65536, s.rows.length % 65536] ++
        (s.accept.flatMap fun a => [a.1, a.2]) ++ s.rows.flatMap fun e => e.slots target := by
  rw [slots, length_rows, rows, List.flatMap_append, List.flatMap_map, List.append_assoc]
  rfl

theorem length_slots (s : TokenState) (offset : Nat) (target : Nat → Nat) :
    (s.slots offset target).length = s.size := by
  rw [slots_eq, size, ← length_rows]
  simp [List.length_flatMap, TokenEdge.slots, List.map_const', Nat.mul_comm]
  omega

end TokenState

/-- Every token state stands at its offset. -/
theorem holdsAt_tokenSlots {states : List TokenState} {id : Nat} {s : TokenState}
    (h : states[id]? = some s) :
    HoldsAt (tokenSlots states)
      (s.slots (tokenOffset states id % 65536) fun id => (tokenOffsets 0 states).getD id 0)
      (tokenOffset states id) := by
  have key : ∀ (target : Nat → Nat) (offset : Nat),
      HoldsAt ((states.zip (tokenOffsets offset states)).flatMap fun s => s.1.slots s.2 target)
        (s.slots ((offset + tokenOffset states id) % 65536) target) (tokenOffset states id) := by
    intro target
    induction states generalizing id with
    | nil => cases h
    | cons first rest ih =>
        intro offset
        rw [tokenOffsets, List.zip_cons_cons, List.flatMap_cons]
        cases id with
        | zero =>
            obtain rfl := Option.some.inj h
            exact List.prefix_append _ _
        | succ id =>
            rw [List.getElem?_cons_succ] at h
            have hrest := ih h (offset + first.size)
            rw [HoldsAt, tokenOffset_cons_succ, ← first.length_slots (offset % 65536) target,
              List.drop_length_add_append, first.length_slots, ← Nat.add_assoc]
            exact hrest
  have hzero := key (fun id => (tokenOffsets 0 states).getD id 0) 0
  rw [Nat.zero_add] at hzero
  exact hzero

/-- A slot of a list that stands in slots. -/
theorem HoldsAt.getElem? {slots list : List Nat} {offset k n : Nat}
    (h : HoldsAt slots list offset) (hk : list[k]? = some n) : slots[offset + k]? = some n := by
  obtain ⟨rest, heq⟩ := h
  rw [← List.getElem?_drop, ← heq, List.getElem?_append_left]
  · exact hk
  · exact (List.getElem?_eq_some_iff.1 hk).1

/-- A list behind another one. -/
theorem HoldsAt.right {slots a b : List Nat} {offset : Nat} (h : HoldsAt slots (a ++ b) offset) :
    HoldsAt slots b (offset + a.length) := by
  obtain ⟨rest, heq⟩ := h
  refine ⟨rest, ?_⟩
  rw [← List.drop_drop, ← heq, List.append_assoc, List.drop_left]

theorem HoldsAt.left {slots a b : List Nat} {offset : Nat} (h : HoldsAt slots (a ++ b) offset) :
    HoldsAt slots a offset :=
  (List.prefix_append a b).trans h

/-! ### Token states whose table can be read back -/

/-- One token state leads to another one at the end of the input. -/
def EndsIn (states : List TokenState) (id target : Nat) : Prop :=
  ∃ s, states[id]? = some s ∧ s.eof = some target

/-- Token states whose table can be read back: edges that do not overlap, that lead to states of the
automaton and never around a cycle at the end of the input, and a table whose offsets and numbers
have 16 bits. -/
structure TokenStatesFit (states : List TokenState) : Prop where
  edge : ∀ s ∈ states, ∀ e ∈ s.edges, e.first < e.bound ∧ e.bound ≤ 65536 ∧ e.first < listEnd
  apart : ∀ s ∈ states, s.edges.Pairwise fun a b => a.bound ≤ b.first ∨ b.bound ≤ a.first
  target : ∀ s ∈ states, ∀ e ∈ s.edges, e.target < states.length
  ending : ∀ s ∈ states, ∀ t ∈ s.eof, t < states.length
  acyclic : ∀ id, ¬ Relation.TransGen (EndsIn states) id id
  offsets : ∀ id s, states[id]? = some s →
    tokenOffset states id + 3 + s.accept.length * 2 < 65536
  counts : ∀ s ∈ states, s.edges.length + s.eof.toList.length < 65536

namespace TokenState

/-- What is known of the edges of a single state. -/
structure EdgesFit (s : TokenState) : Prop where
  edge : ∀ e ∈ s.edges, e.first < e.bound ∧ e.bound ≤ 65536 ∧ e.first < listEnd
  apart : s.edges.Pairwise fun a b => a.bound ≤ b.first ∨ b.bound ≤ a.first

theorem mem_rows {s : TokenState} {e : TokenEdge} :
    e ∈ s.rows ↔ e ∈ s.edges ∨ ∃ t ∈ s.eof, e = ⟨listEnd, 65536, t⟩ := by
  simp [rows, eq_comm]

/-- No byte reaches the range that stands for the end. -/
theorem mem_edges_of_holds {s : TokenState} {e : TokenEdge} {byte : Nat} (he : e ∈ s.rows)
    (hbyte : byte < listEnd) (h : e.Holds byte) : e ∈ s.edges := by
  rcases mem_rows.1 he with he | ⟨t, -, rfl⟩
  · exact he
  · exact absurd h.1 (Nat.not_le.2 hbyte)

namespace EdgesFit

variable {s : TokenState}

theorem bounds (h : s.EdgesFit) {e : TokenEdge} (he : e ∈ s.rows) :
    e.first < e.bound ∧ e.bound ≤ 65536 := by
  rcases mem_rows.1 he with he | ⟨t, -, rfl⟩
  · exact ⟨(h.edge e he).1, (h.edge e he).2.1⟩
  · exact ⟨show listEnd < 65536 by decide, Nat.le_refl _⟩

/-- The ranges are written in order. -/
theorem pairwise_rows (h : s.EdgesFit) :
    s.rows.Pairwise fun a b => a.first ≤ b.first ∧ a.bound ≤ b.bound := by
  have hperm : (s.edges.mergeSort fun a b => a.first ≤ b.first).Perm s.edges :=
    List.mergeSort_perm _ _
  have hsorted : (s.edges.mergeSort fun a b => a.first ≤ b.first).Pairwise
      fun a b => a.first ≤ b.first := by
    have htrans : ∀ a b c : TokenEdge, decide (a.first ≤ b.first) = true →
        decide (b.first ≤ c.first) = true → decide (a.first ≤ c.first) = true := by
      simp only [decide_eq_true_eq]
      omega
    have htotal : ∀ a b : TokenEdge,
        (decide (a.first ≤ b.first) || decide (b.first ≤ a.first)) = true := by
      simp only [Bool.or_eq_true, decide_eq_true_eq]
      omega
    simpa using List.pairwise_mergeSort htrans htotal s.edges
  have hapart := (hperm.pairwise_iff (fun hab => Or.symm hab)).2 h.apart
  refine List.pairwise_append.2 ⟨?_, ?_, ?_⟩
  · refine (hsorted.and hapart).imp_of_mem fun {a b} ha hb hab => ⟨hab.1, ?_⟩
    -- of two ranges that do not overlap the one that starts later ends later
    have := h.edge a (hperm.mem_iff.1 ha)
    have := h.edge b (hperm.mem_iff.1 hb)
    rcases hab.2 with hle | hle
    · omega
    · omega
  · cases s.eof <;> simp
  · intro a ha b hb
    obtain ⟨t, -, rfl⟩ := List.mem_map.1 hb
    have := h.edge a (hperm.mem_iff.1 ha)
    exact ⟨Nat.le_of_lt this.2.2, this.2.1⟩

/-- Two edges for one byte are the same. -/
theorem unique (h : s.EdgesFit) {a b : TokenEdge} {byte : Nat} (ha : a ∈ s.edges)
    (hb : b ∈ s.edges) (hab : a.Holds byte) (hbb : b.Holds byte) : a = b := by
  obtain ⟨i, hi, rfl⟩ := List.getElem_of_mem ha
  obtain ⟨j, hj, rfl⟩ := List.getElem_of_mem hb
  obtain ⟨h₁, h₂⟩ := hab
  obtain ⟨h₃, h₄⟩ := hbb
  have hapart := List.pairwise_iff_getElem.1 h.apart
  rcases Nat.lt_trichotomy i j with hlt | rfl | hlt
  · have := hapart i j hi hj hlt
    omega
  · rfl
  · have := hapart j i hj hi hlt
    omega

end EdgesFit

end TokenState

/-! ### Reading a table -/

namespace Group

variable {g : Group}

theorem slot_of_holdsAt {list : List Nat} {offset k n : Nat}
    (h : HoldsAt g.data.toList list offset) (hk : list[k]? = some n) : g.slot (offset + k) = n := by
  have hslot := h.getElem? hk
  rw [Array.getElem?_toList] at hslot
  rw [slot, Array.getD_eq_getD_getElem?, hslot]
  rfl

/-- The accepted terms are read back. -/
theorem acceptPairsF_eq {accept : List (Nat × Nat)} {i stop fuel : Nat}
    (h : HoldsAt g.data.toList (accept.flatMap fun a => [a.1, a.2]) i)
    (hstop : i + accept.length * 2 = stop) (hfuel : accept.length < fuel) :
    acceptPairsF g stop fuel i = accept := by
  induction accept generalizing i fuel with
  | nil =>
      obtain ⟨fuel, rfl⟩ := Nat.exists_eq_succ_of_ne_zero (Nat.ne_of_gt hfuel)
      rw [List.length_nil] at hstop
      rw [acceptPairsF, if_neg (by omega)]
  | cons a rest ih =>
      obtain ⟨fuel, rfl⟩ := Nat.exists_eq_succ_of_ne_zero (Nat.ne_of_gt (Nat.zero_lt_of_lt hfuel))
      rw [List.length_cons] at hstop hfuel
      rw [List.flatMap_cons] at h
      have hterm := slot_of_holdsAt (k := 0) h rfl
      have hmask := slot_of_holdsAt (k := 1) h rfl
      rw [Nat.add_zero] at hterm
      have hnext : acceptPairsF g stop fuel (i + 2) = rest := ih h.right (by omega) (by omega)
      rw [acceptPairsF, if_pos (by omega), hterm, hmask, hnext]

/-- The slots of one of some edges. -/
theorem slots_row {rows : List TokenEdge} {target : Nat → Nat} {edges k : Nat} {e : TokenEdge}
    (h : HoldsAt g.data.toList (rows.flatMap fun e => e.slots target) edges)
    (hk : rows[k]? = some e) : HoldsAt g.data.toList (e.slots target) (edges + k * 3) := by
  induction rows generalizing edges k with
  | nil => cases hk
  | cons first rest ih =>
      rw [List.flatMap_cons] at h
      cases k with
      | zero =>
          obtain rfl := Option.some.inj hk
          rw [Nat.zero_mul]
          exact h.left
      | succ k =>
          have hoffset : edges + (k + 1) * 3 = edges + (first.slots target).length + k * 3 := by
            simp only [TokenEdge.slots, List.length_cons, List.length_nil]
            omega
          rw [hoffset]
          exact ih h.right hk

/-- What is written for a range that ends in 16 bits. -/
theorem slot_row {rows : List TokenEdge} {target : Nat → Nat} {edges k : Nat} {e : TokenEdge}
    (h : HoldsAt g.data.toList (rows.flatMap fun e => e.slots target) edges)
    (hk : rows[k]? = some e) (hbounds : e.first < e.bound ∧ e.bound ≤ 65536) :
    g.slot (edges + k * 3) = e.first ∧
      (if g.slot (edges + k * 3 + 1) = 0 then 65536 else g.slot (edges + k * 3 + 1)) = e.bound ∧
      g.slot (edges + k * 3 + 2) = target e.target := by
  have hrow := slots_row h hk
  have hfirst := slot_of_holdsAt (k := 0) hrow rfl
  have hbound := slot_of_holdsAt (k := 1) hrow rfl
  refine ⟨hfirst, ?_, slot_of_holdsAt (k := 2) hrow rfl⟩
  rw [hbound]
  split <;> split <;> omega

/-- Rows that stand in order. -/
theorem bounds_le_of_sorted {rows : List TokenEdge}
    (h : rows.Pairwise fun a b => a.first ≤ b.first ∧ a.bound ≤ b.bound) {i j : Nat}
    {a b : TokenEdge} (hij : i ≤ j) (ha : rows[i]? = some a) (hb : rows[j]? = some b) :
    a.first ≤ b.first ∧ a.bound ≤ b.bound := by
  rcases Nat.eq_or_lt_of_le hij with rfl | hij
  · obtain rfl := Option.some.inj (ha.symm.trans hb)
    exact ⟨Nat.le_refl _, Nat.le_refl _⟩
  · obtain ⟨hi, rfl⟩ := List.getElem?_eq_some_iff.1 ha
    obtain ⟨hj, rfl⟩ := List.getElem?_eq_some_iff.1 hb
    exact List.pairwise_iff_getElem.1 h i j hi hj hij

/-- **Halving finds the edge of a byte**, if there is one. -/
theorem edgeForF_spec {rows : List TokenEdge} {target : Nat → Nat} {edges byte : Nat}
    (h : HoldsAt g.data.toList (rows.flatMap fun e => e.slots target) edges)
    (hbounds : ∀ e ∈ rows, e.first < e.bound ∧ e.bound ≤ 65536)
    (hsorted : rows.Pairwise fun a b => a.first ≤ b.first ∧ a.bound ≤ b.bound)
    {fuel low high : Nat} (hhigh : high ≤ rows.length) (hfuel : high - low < fuel)
    (hlow : ∀ k < low, ∀ e, rows[k]? = some e → ¬ e.Holds byte)
    (hrest : ∀ k, high ≤ k → ∀ e, rows[k]? = some e → ¬ e.Holds byte) :
    (∃ e ∈ rows, e.Holds byte ∧ edgeForF g edges byte fuel low high = some (target e.target)) ∨
      (∀ e ∈ rows, ¬ e.Holds byte) ∧ edgeForF g edges byte fuel low high = none := by
  induction fuel generalizing low high with
  | zero => omega
  | succ fuel ih =>
      rw [edgeForF]
      by_cases hlt : low < high
      · rw [if_pos hlt]
        have hmid : (low + high) / 2 < rows.length := by omega
        generalize hm : (low + high) / 2 = mid at hmid
        have hat := List.getElem?_eq_getElem hmid
        have hmem := List.getElem_mem hmid
        generalize rows[mid] = m at hat hmem
        obtain ⟨hfirst, hbound, htarget⟩ := slot_row h hat (hbounds m hmem)
        simp only [hfirst, hbound, htarget]
        by_cases hbefore : byte < m.first
        · rw [if_pos hbefore]
          refine ih (by omega) (by omega) hlow fun k hk e he hold => ?_
          -- the ranges from the middle on start behind the byte
          have hle := (bounds_le_of_sorted hsorted hk hat he).1
          exact absurd hold.1 (by omega)
        · rw [if_neg hbefore]
          by_cases hbehind : m.bound ≤ byte
          · rw [if_pos hbehind]
            refine ih hhigh (by omega) (fun k hk e he hold => ?_) hrest
            -- the ranges up to the middle end before the byte
            have hle := (bounds_le_of_sorted hsorted (Nat.le_of_lt_succ hk) he hat).2
            exact absurd hold.2 (by omega)
          · rw [if_neg hbehind]
            exact Or.inl ⟨m, hmem, ⟨by omega, by omega⟩, rfl⟩
      · rw [if_neg hlt]
        refine Or.inr ⟨fun e he hold => ?_, rfl⟩
        obtain ⟨k, hk⟩ := List.getElem?_of_mem he
        rcases Nat.lt_or_ge k low with hkl | hkl
        · exact hlow k hkl e hk hold
        · exact hrest k (by omega) e hk hold

/-! ### A state in a table -/

/-- What the slots of a token state say. -/
structure Describes (g : Group) (target : Nat → Nat) (s : TokenState) (state : Nat) : Prop where
  mask : g.slot state = s.groupMask
  count : g.slot (state + 2) = s.rows.length
  accept : acceptPairsF g (g.slot (state + 1)) (g.slot (state + 1) + 1) (state + 3) = s.accept
  rows : HoldsAt g.data.toList (s.rows.flatMap fun e => e.slots target) (g.slot (state + 1))

/-- A token state that stands in the table, with numbers of 16 bits, is described by its slots. -/
theorem describes_of_holdsAt {s : TokenState} {state : Nat} {target : Nat → Nat}
    (h : HoldsAt g.data.toList (s.slots state target) state)
    (hstop : state + 3 + s.accept.length * 2 < 65536) (hcount : s.rows.length < 65536) :
    g.Describes target s state := by
  rw [TokenState.slots_eq, Nat.mod_eq_of_lt hstop, Nat.mod_eq_of_lt hcount] at h
  have hmask := slot_of_holdsAt (k := 0) h.left.left rfl
  have haccept := slot_of_holdsAt (k := 1) h.left.left rfl
  have hnumber := slot_of_holdsAt (k := 2) h.left.left rfl
  have hrows := h.right
  have hlength : ∀ accept : List (Nat × Nat),
      (accept.flatMap fun a => [a.1, a.2]).length = accept.length * 2 := by
    intro accept
    induction accept with
    | nil => rfl
    | cons a rest ih =>
        rw [List.flatMap_cons, List.length_append, ih, List.length_cons]
        simp only [List.length_cons, List.length_nil]
        omega
  refine ⟨hmask, hnumber, ?_, ?_⟩
  · rw [haccept]
    exact acceptPairsF_eq h.left.right rfl (by omega)
  · rw [haccept]
    rw [List.length_append, hlength, ← Nat.add_assoc] at hrows
    exact hrows

namespace Describes

variable {target : Nat → Nat} {s : TokenState} {state : Nat}

/-- **The edge of a byte is found**, if there is one. -/
theorem edgeFor_spec (h : g.Describes target s state) (hs : s.EdgesFit) {byte : Nat}
    (hbyte : byte < listEnd) :
    (∃ e ∈ s.edges, e.Holds byte ∧
      g.edgeFor (g.slot (state + 1)) (g.slot (state + 2)) byte = some (target e.target)) ∨
      (∀ e ∈ s.edges, ¬ e.Holds byte) ∧
        g.edgeFor (g.slot (state + 1)) (g.slot (state + 2)) byte = none := by
  rw [edgeFor, h.count]
  have hend : ∀ k, s.rows.length ≤ k → ∀ e, s.rows[k]? = some e → ¬ e.Holds byte := by
    intro k hk e he
    rw [List.getElem?_eq_none hk] at he
    cases he
  rcases edgeForF_spec h.rows (fun e he => hs.bounds he) hs.pairwise_rows
    (Nat.le_refl _) (Nat.lt_succ_self _) (fun k hk => absurd hk (Nat.not_lt_zero k)) hend with
    ⟨e, he, hold, heq⟩ | ⟨hnone, heq⟩
  · exact Or.inl ⟨e, TokenState.mem_edges_of_holds he hbyte hold, hold, heq⟩
  · exact Or.inr ⟨fun e he => hnone e (TokenState.mem_rows.2 (Or.inl he)), heq⟩

/-- The end of the input is looked for in the last row. -/
theorem edgeForEnd_of_last (h : g.Describes target s state) (hs : s.EdgesFit) {e : TokenEdge}
    (hlast : s.rows.getLast? = some e) :
    g.edgeForEnd (g.slot (state + 1)) (g.slot (state + 2)) =
      if e.first = listEnd then some (target e.target) else none := by
  have hpos : 0 < s.rows.length := List.length_pos_of_mem (List.mem_of_getLast? hlast)
  have hat : s.rows[s.rows.length - 1]? = some e := by rwa [← List.getLast?_eq_getElem?]
  obtain ⟨hfirst, -, htarget⟩ := slot_row h.rows hat (hs.bounds (List.mem_of_getLast? hlast))
  have hbase : g.slot (state + 1) + s.rows.length * 3 - 3 =
      g.slot (state + 1) + (s.rows.length - 1) * 3 := by omega
  have hnext : g.slot (state + 1) + s.rows.length * 3 - 1 =
      g.slot (state + 1) + (s.rows.length - 1) * 3 + 2 := by omega
  rw [edgeForEnd, h.count, hbase, hnext, hfirst, htarget]
  simp [hpos]

/-- **The edge for the end of the input is found**, if there is one. -/
theorem edgeForEnd_eq (h : g.Describes target s state) (hs : s.EdgesFit) :
    g.edgeForEnd (g.slot (state + 1)) (g.slot (state + 2)) = s.eof.map target := by
  cases heof : s.eof with
  | some t =>
      have hlast : s.rows.getLast? = some ⟨listEnd, 65536, t⟩ := by
        simp [TokenState.rows, heof]
      rw [h.edgeForEnd_of_last hs hlast, if_pos rfl]
      rfl
  | none =>
      cases hlast : s.rows.getLast? with
      | none =>
          rw [List.getLast?_eq_none_iff] at hlast
          rw [edgeForEnd, h.count, hlast]
          rfl
      | some e =>
          -- the last row is that of a byte
          have hne : ¬ e.first = listEnd := by
            rcases TokenState.mem_rows.1 (List.mem_of_getLast? hlast) with he | ⟨t, ht, -⟩
            · exact Nat.ne_of_lt (hs.edge e he).2.2
            · rw [heof] at ht
              cases ht
          rw [h.edgeForEnd_of_last hs hlast, if_neg hne]
          rfl

end Describes

end Group

namespace TokenStatesFit

variable {states : List TokenState}

theorem edgesFit (h : TokenStatesFit states) {id : Nat} {s : TokenState}
    (hs : states[id]? = some s) : s.EdgesFit :=
  ⟨h.edge s (List.mem_of_getElem? hs), h.apart s (List.mem_of_getElem? hs)⟩

/-- Targets are written as the offsets of their states. -/
theorem getD_tokenOffsets (h : TokenStatesFit states) {id : Nat} (hid : id < states.length) :
    (tokenOffsets 0 states).getD id 0 = tokenOffset states id := by
  have hs := List.getElem?_eq_getElem hid
  have hoffset := h.offsets id _ hs
  rw [List.getD_eq_getElem?_getD, getElem?_tokenOffsets hs, Nat.zero_add,
    Nat.mod_eq_of_lt (by omega)]
  rfl

/-- **Every state is described by the slots at its offset.** -/
theorem describes (h : TokenStatesFit states) (group : Nat) {id : Nat} {s : TokenState}
    (hs : states[id]? = some s) :
    Group.Describes ⟨(tokenSlots states).toArray, group⟩
      (fun id => (tokenOffsets 0 states).getD id 0) s (tokenOffset states id) := by
  have hoffset := h.offsets id s hs
  have hholds := holdsAt_tokenSlots hs
  rw [Nat.mod_eq_of_lt (by omega)] at hholds
  refine Group.describes_of_holdsAt hholds hoffset ?_
  rw [TokenState.length_rows]
  exact h.counts s (List.mem_of_getElem? hs)

end TokenStatesFit

/-- Every state takes a slot. -/
theorem length_le_tokenSlots (states : List TokenState) :
    states.length ≤ (tokenSlots states).length := by
  have key : ∀ (target : Nat → Nat) (offset : Nat), states.length ≤
      ((states.zip (tokenOffsets offset states)).flatMap fun s => s.1.slots s.2 target).length := by
    intro target
    induction states with
    | nil => exact fun _ => Nat.zero_le _
    | cons s rest ih =>
        intro offset
        have hrest := ih (offset + s.size)
        have hsize : 3 ≤ (s.slots (offset % 65536) target).length := by
          rw [TokenState.length_slots, TokenState.size]
          omega
        rw [tokenOffsets, List.zip_cons_cons, List.flatMap_cons, List.length_append,
          List.length_cons]
        dsimp only
        omega
  exact key _ 0

end IncrementalLR
