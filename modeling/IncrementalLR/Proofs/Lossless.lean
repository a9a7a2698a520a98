/-
**Token trees are lossless.**

A token tree is built by calls: a node is opened, what it holds follows, and it is closed again; in
between, tokens are added.  The calls of a syntax tree follow navigation, from the first child of a
node on to the next siblings, and whatever way the nodes are stored they take back every node that
they open, and their tokens spell the document.

A node adds the text in front of it and its own text, so what has been added always ends where the
last node ended.  The text in between is cut where nodes begin and end, and is read in these pieces;
if they cut a character in two, the pieces show replacement characters instead.

Main definitions:

* `BuilderCall`, `BuilderCall.Balanced`, `BuilderCall.spelled` — the calls, calls that close what
  they open, and the text that calls add;
* `TokenTree.calls`, `Tree.builderCalls` — the calls that build a token tree, and those that a
  syntax tree is turned into;
* `Node.Bears` — what navigation finds below a node.

Main results:

* `Node.textAll_tokensF` — the tokens of siblings spell what lies between two positions;
* `Tree.builderCalls_lossless` — **the tokens spell the document**, and nodes are opened and closed
  in pairs.
-/

import IncrementalLR.Proofs.Characters
import IncrementalLR.Proofs.Resolving
import IncrementalLR.Tree.Tokens

set_option relaxedAutoImplicit false
set_option autoImplicit false

namespace IncrementalLR

/-! ### Calls -/

/-- What is asked for when a token tree is built. -/
inductive BuilderCall where
  /-- A node is opened. -/
  | start (kind : Nat)
  /-- A token is added to the open node. -/
  | token (kind : Nat) (text : String)
  /-- The open node is closed. -/
  | finish

namespace BuilderCall

/-- The change of the number of open nodes. -/
def change : BuilderCall → Int
  | start _ => 1
  | token _ _ => 0
  | finish => -1

/-- The number of nodes that are open after calls. -/
def openNodes : List BuilderCall → Int
  | [] => 0
  | c :: calls => c.change + openNodes calls

/-- Calls that never close a node that they did not open, and leave none open. -/
structure Balanced (calls : List BuilderCall) : Prop where
  never : ∀ p : List BuilderCall, p <+: calls → 0 ≤ openNodes p
  closed : openNodes calls = 0

/-- The text of the token that a call adds. -/
def text : BuilderCall → String
  | start _ => ""
  | token _ s => s
  | finish => ""

/-- The text of all tokens in order. -/
def spelled : List BuilderCall → String
  | [] => ""
  | c :: rest => c.text ++ spelled rest

variable {calls calls' : List BuilderCall}

@[simp] theorem openNodes_nil : openNodes [] = 0 := rfl

@[simp] theorem openNodes_cons (c : BuilderCall) (calls : List BuilderCall) :
    openNodes (c :: calls) = c.change + openNodes calls :=
  rfl

@[simp] theorem openNodes_append (calls calls' : List BuilderCall) :
    openNodes (calls ++ calls') = openNodes calls + openNodes calls' := by
  induction calls with
  | nil => rw [List.nil_append, openNodes_nil, Int.zero_add]
  | cons c rest ih => rw [List.cons_append, openNodes_cons, ih, openNodes_cons, Int.add_assoc]

theorem spelled_append (calls calls' : List BuilderCall) :
    spelled (calls ++ calls') = spelled calls ++ spelled calls' := by
  induction calls with
  | nil => rw [spelled, String.empty_append, List.nil_append]
  | cons c calls ih => rw [List.cons_append, spelled, spelled, ih, String.append_assoc]

namespace Balanced

theorem nil : Balanced [] where
  never := by
    intro p hp
    rw [List.prefix_nil.1 hp]
    exact Int.le_refl 0
  closed := rfl

theorem append (h : Balanced calls) (h' : Balanced calls') : Balanced (calls ++ calls') where
  never := by
    intro p hp
    rcases List.prefix_or_prefix_of_prefix hp (List.prefix_append calls calls') with hle | hle
    · exact h.never p hle
    · obtain ⟨q, rfl⟩ := hle
      rw [openNodes_append, h.closed, Int.zero_add]
      exact h'.never q ((List.prefix_append_right_inj calls).1 hp)
  closed := by rw [openNodes_append, h.closed, h'.closed, Int.zero_add]

theorem token (kind : Nat) (s : String) : Balanced [.token kind s] where
  never := by
    intro p hp
    rcases List.prefix_cons_iff.1 hp with rfl | ⟨q, rfl, hq⟩
    · exact Int.le_refl 0
    · rw [List.prefix_nil.1 hq]
      exact Int.le_refl 0
  closed := rfl

/-- A node around balanced calls. -/
theorem node (kind : Nat) (h : Balanced calls) :
    Balanced (.start kind :: (calls ++ [.finish])) where
  never := by
    intro p hp
    rcases List.prefix_cons_iff.1 hp with rfl | ⟨q, rfl, hq⟩
    · exact Int.le_refl 0
    · rw [openNodes_cons, change]
      rcases List.prefix_concat_iff.1 hq with rfl | hq
      · rw [openNodes_append, h.closed, openNodes_cons, openNodes_nil, change]
        decide
      · have := h.never q hq
        omega
  closed := by
    rw [openNodes_cons, openNodes_append, h.closed]
    rfl

end Balanced

end BuilderCall

namespace TokenTree

mutual

/-- The calls that build a token tree. -/
def calls : TokenTree → List BuilderCall
  | node kind cs => .start kind :: (callsAll cs ++ [.finish])
  | token kind s => [.token kind s]

/-- The calls that build several token trees, one after the other. -/
def callsAll : List TokenTree → List BuilderCall
  | [] => []
  | t :: rest => t.calls ++ callsAll rest

end

theorem callsAll_append (ts ts' : List TokenTree) :
    callsAll (ts ++ ts') = callsAll ts ++ callsAll ts' := by
  induction ts with
  | nil => rfl
  | cons t ts ih => rw [List.cons_append, callsAll, callsAll, ih, List.append_assoc]

theorem textAll_append (ts ts' : List TokenTree) :
    textAll (ts ++ ts') = textAll ts ++ textAll ts' := by
  induction ts with
  | nil => rw [textAll, String.empty_append, List.nil_append]
  | cons t ts ih => rw [List.cons_append, textAll, textAll, ih, String.append_assoc]

open BuilderCall in
mutual

/-- The calls add the text of the tree. -/
theorem spelled_calls : ∀ t : TokenTree, spelled t.calls = t.text
  | node kind cs => by
      rw [calls, spelled, spelled_append, spelled_callsAll cs, TokenTree.text]
      simp [spelled, BuilderCall.text]
  | token kind s => by
      rw [calls, spelled, spelled, TokenTree.text]
      exact String.append_empty

theorem spelled_callsAll : ∀ ts : List TokenTree, spelled (callsAll ts) = textAll ts
  | [] => rfl
  | t :: rest => by
      rw [callsAll, spelled_append, spelled_calls t, spelled_callsAll rest, textAll]

end

open BuilderCall in
mutual

/-- The calls close every node that they open. -/
theorem balanced_calls : ∀ t : TokenTree, Balanced t.calls
  | node kind cs => by
      rw [calls]
      exact (balanced_callsAll cs).node kind
  | token kind s => .token kind s

theorem balanced_callsAll : ∀ ts : List TokenTree, Balanced (callsAll ts)
  | [] => .nil
  | t :: rest => (balanced_calls t).append (balanced_callsAll rest)

end

end TokenTree

/-! ### The calls of a syntax tree -/

/-- The call for the text between two nodes, if there is text between them. -/
def gapCalls (source : Array UInt8) (start stop : Nat) : List BuilderCall :=
  if start < stop then [.token gapKind (Text.ofSlice source start stop)] else []

namespace Node

/-- The calls for a node and for the siblings after it.  `pos` is how far the text has been added,
and `stop` is where the parent ends. -/
def callsF (source : Array UInt8) : Nat → Nat → Nat → Option Node → List BuilderCall
  | 0, _, _, _ => []
  | _, pos, stop, none => gapCalls source pos stop
  | fuel + 1, pos, stop, some n =>
      let here :=
        match n.firstChild with
        | some c => .start n.type.id :: (callsF source fuel n.start n.stop (some c) ++ [.finish])
        | none => [.token n.type.id (Text.ofSlice source n.start n.stop)]
      gapCalls source pos n.start ++
        (here ++ callsF source fuel (max pos n.stop) stop n.nextSibling)

end Node

/-- The calls that turn a syntax tree and its document into a token tree. -/
def Tree.builderCalls (t : Tree) (source : Array UInt8) : List BuilderCall :=
  .start t.type.id ::
    (Node.callsF source (t.weight * t.weight + 1) 0 t.length t.top.firstChild ++ [.finish])

theorem callsAll_gapToken (source : Array UInt8) (start stop : Nat) :
    TokenTree.callsAll (gapToken source start stop) = gapCalls source start stop := by
  rw [gapToken, gapCalls]
  split <;> rfl

theorem Node.callsAll_tokensF (source : Array UInt8) (fuel pos stop : Nat) (start : Option Node) :
    TokenTree.callsAll (tokensF source fuel pos stop start) =
      callsF source fuel pos stop start := by
  induction fuel generalizing pos stop start with
  | zero => rfl
  | succ fuel ih =>
      cases start with
      | none => exact callsAll_gapToken source pos stop
      | some n =>
          rw [tokensF, callsF, TokenTree.callsAll_append, TokenTree.callsAll, callsAll_gapToken, ih]
          cases n.firstChild with
          | none => rfl
          | some c =>
              dsimp only
              rw [TokenTree.calls, ih]

/-- **The calls build the token tree.** -/
theorem Tree.builderCalls_eq (t : Tree) (source : Array UInt8) :
    t.builderCalls source = (t.tokenTree source).calls := by
  rw [builderCalls, tokenTree, TokenTree.calls, Node.callsAll_tokensF]

/-! ### What is found below a node -/

namespace Node

/-- What navigation finds below a node: its view children one after the other, each of them as it
should be, in order inside of the node, and together smaller than it. -/
structure Bears (n : Node) : Prop where
  siblings : Siblings .forward {} n.firstChild (n.view {})
  sound : ∀ c ∈ n.view {}, c.Sound {}
  row : Row n.start n.stop (n.view {})
  smaller : extentAll (n.view {}) < n.extent

/-- A branch that does not hand on to what stands beside it. -/
theorem Bears.of_branch {n : BranchNode} (h : n.tree.WellFormed)
    (hend : n.onward { dir := .forward } = none) : (Node.branch n).Bears := by
  have hvalid : ∀ b ∈ Tree.buffersAll n.tree.children, b.Valid := fun b hb =>
    ⟨_, (Tree.Formed.of_mem_buffers h b (Tree.mem_buffers_of_children hb)).spells 0⟩
  have hfits : Tree.Fits Buffer.WellFormed 0 n.tree.length n.tree.children := by
    cases htree : n.tree with
    | branch stamp ty cs len ps =>
        rw [htree] at h
        exact ⟨h.1, h.2⟩
    | packed b => exact ⟨Nat.zero_le _, trivial⟩
  have hstop : Siblings .forward {} (n.search { dir := .forward }
      (Direction.forward.far 0 n.tree.children.length)) [] := by
    rw [BranchNode.search_far { dir := .forward }, hend]
    exact .nil
  have hsiblings := BranchNode.siblings_among .forward {} n [] [] [] n.tree.children hvalid
    (by simp) hstop
  rw [List.append_nil] at hsiblings
  refine ⟨hsiblings, ?_, ?_, ?_⟩
  · intro c hc
    obtain ⟨j, hj⟩ := BranchNode.shows_of_mem_viewAmong {} n n.tree.children 0 hvalid c hc
    exact hj.sound
  · exact BranchNode.row_viewAmong {} n n.tree.children 0 0 n.tree.length hfits
  · exact Nat.lt_of_le_of_lt (BranchNode.extentAll_viewAmong {} n n.tree.children 0 hvalid)
      (Tree.weightAll_children_lt _)

/-- Whatever navigation stops at in a well-formed tree. -/
theorem Bears.of_sound {n : Node} (h : n.Sound {}) (hformed : n.Formed) : n.Bears := by
  cases n with
  | branch n => exact .of_branch hformed (by rw [BranchNode.onward, if_pos h.2])
  | packed n =>
      exact ⟨siblings_child h .forward, fun c hc => h.of_mem_view hc, row_view h hformed,
        extentAll_view_lt h⟩

/-- The root of a well-formed tree, be it named or not. -/
theorem Bears.top {t : Tree} (h : t.WellFormed) : t.top.Bears := by
  refine .of_branch h ?_
  rw [BranchNode.onward]
  split <;> rfl

/-! ### The tokens of siblings -/

/-- Every node that is found begins and ends where characters do. -/
def OnBoundaries (source : Array UInt8) (n : Node) : Prop :=
  ∀ c, n.Reaches {} c →
    Text.isBoundary source c.start = true ∧ Text.isBoundary source c.stop = true

theorem OnBoundaries.of_mem_view {source : Array UInt8} {n c : Node} (h : n.OnBoundaries source)
    (hc : c ∈ n.view {}) : c.OnBoundaries source := fun x hx => h x (.step hc hx)

/-- Whether every node that is found begins and ends where characters do, as far as the fuel
lasts. -/
def onBoundariesF (source : Array UInt8) : Nat → Node → Bool
  | 0, _ => false
  | fuel + 1, n => Text.isBoundary source n.start && Text.isBoundary source n.stop &&
      (n.view {}).all (onBoundariesF source fuel)

theorem OnBoundaries.of_check {source : Array UInt8} (fuel : Nat) {n : Node}
    (h : n.onBoundariesF source fuel = true) : n.OnBoundaries source := by
  intro c hc
  induction hc generalizing fuel with
  | refl =>
      cases fuel with
      | zero => cases h
      | succ fuel => exact Bool.and_eq_true_iff.1 (Bool.and_eq_true_iff.1 h).1
  | step hmem _ ih =>
      cases fuel with
      | zero => cases h
      | succ fuel => exact ih fuel (List.all_eq_true.1 (Bool.and_eq_true_iff.1 h).2 _ hmem)

theorem textAll_gapToken {source : Array UInt8} {start stop : Nat} (h : start ≤ stop) :
    TokenTree.textAll (gapToken source start stop) = Text.ofSlice source start stop := by
  rw [gapToken]
  rcases Nat.lt_or_eq_of_le h with hlt | rfl
  · rw [if_pos hlt, TokenTree.textAll, TokenTree.textAll, TokenTree.text, String.append_empty]
  · rw [if_neg (Nat.lt_irrefl _), Text.ofSlice_self, TokenTree.textAll]

/-- The tree of a node stands behind the text in front of it.  Its text is that of what it holds,
or its own. -/
theorem exists_tokensF_eq (source : Array UInt8) (fuel pos stop : Nat) (n : Node) :
    ∃ here : TokenTree,
      (n.firstChild = none → here.text = Text.ofSlice source n.start n.stop) ∧
      (∀ c, n.firstChild = some c →
        here.text = TokenTree.textAll (tokensF source fuel n.start n.stop (some c))) ∧
      tokensF source (fuel + 1) pos stop (some n) =
        gapToken source pos n.start ++
          here :: tokensF source fuel (max pos n.stop) stop n.nextSibling := by
  cases hfirst : n.firstChild with
  | none =>
      refine ⟨.token n.type.id (Text.ofSlice source n.start n.stop), fun _ => rfl, ?_, ?_⟩
      · rintro c ⟨⟩
      · rw [tokensF, hfirst]
  | some c =>
      refine ⟨.node n.type.id (tokensF source fuel n.start n.stop (some c)), ?_, ?_, ?_⟩
      · rintro ⟨⟩
      · rintro _ ⟨⟩
        rfl
      · rw [tokensF, hfirst]

/-- **The tokens of siblings spell what lies between two positions.**  What has been added ends at
`pos`, where the row of the siblings begins. -/
theorem textAll_tokensF {s : String} {fuel pos stop : Nat} {start : Option Node} {ns : List Node}
    (hsiblings : Siblings .forward {} start ns) (hrow : Row pos stop ns)
    (hsound : ∀ n ∈ ns, n.Sound {}) (hcut : ∀ n ∈ ns, n.OnBoundaries (Text.toBytes s))
    (hpos : Text.isBoundary (Text.toBytes s) pos = true) (hfuel : extentAll ns < fuel) :
    TokenTree.textAll (tokensF (Text.toBytes s) fuel pos stop start) =
      Text.ofSlice (Text.toBytes s) pos stop := by
  induction fuel generalizing pos stop start ns with
  | zero => exact absurd hfuel (Nat.not_lt_zero _)
  | succ fuel ih =>
      cases hsiblings with
      | nil => exact textAll_gapToken hrow
      | @cons n ns hnext =>
          obtain ⟨hlo, hformed, hrest⟩ := hrow
          obtain ⟨hn, hns⟩ := List.forall_mem_cons.1 hsound
          obtain ⟨hcutHere, hcutRest⟩ := List.forall_mem_cons.1 hcut
          obtain ⟨hstart, hstop⟩ := hcutHere n (.refl n)
          rw [extentAll_cons] at hfuel
          have hextent := hn.extent_pos
          have hbears := Bears.of_sound hn hformed
          have hsmaller := hbears.smaller
          have hbehind : TokenTree.textAll (tokensF _ fuel n.stop stop n.nextSibling) = _ :=
            ih hnext hrest hns hcutRest hstop (by omega)
          obtain ⟨here, hleaf, hnode, heq⟩ := exists_tokensF_eq (Text.toBytes s) fuel pos stop n
          have hhere : here.text = Text.ofSlice (Text.toBytes s) n.start n.stop := by
            cases hfirst : n.firstChild with
            | none => exact hleaf hfirst
            | some c =>
                rw [hnode c hfirst]
                exact ih (hfirst ▸ hbears.siblings) hbears.row hbears.sound
                  (fun c hc => hcutHere.of_mem_view hc) hstart (by omega)
          rw [heq, TokenTree.textAll_append, TokenTree.textAll, hhere, textAll_gapToken hlo,
            Nat.max_eq_right (Nat.le_trans hlo hformed.le), hbehind,
            Text.ofSlice_append hformed.le hrest.le hstart hstop,
            Text.ofSlice_append hlo (Nat.le_trans hformed.le hrest.le) hpos hstart]

end Node

namespace Tree

variable {t : Tree} {s : String}

/-- **The tokens of a token tree spell the document.** -/
theorem text_tokenTree (h : t.WellFormed) (hlength : t.length = (Text.toBytes s).size)
    (hcut : t.top.OnBoundaries (Text.toBytes s)) : (t.tokenTree (Text.toBytes s)).text = s := by
  have hbears := Node.Bears.top h
  have hfuel : Node.extentAll (t.top.view {}) < t.weight * t.weight + 1 := by
    have hsmaller : Node.extentAll (t.top.view {}) < t.weight := hbears.smaller
    have := Nat.le_mul_self t.weight
    omega
  have hrow : Node.Row 0 t.length (t.top.view {}) := by
    have hrow := hbears.row
    rwa [show t.top.stop = t.length from Nat.zero_add _] at hrow
  rw [tokenTree, TokenTree.text, Node.textAll_tokensF hbears.siblings hrow hbears.sound
    (fun c hc => hcut.of_mem_view hc) (Text.isBoundary_zero s) hfuel, hlength, Text.ofSlice_all]

/-- **Token trees are lossless.**  Of a well-formed tree as long as its document, all of whose nodes
begin and end where characters do, the calls that build the token tree add tokens that spell the
document.  They open one node, the root, and close it at the end; in between they never close a
node that they have not opened and leave none open. -/
theorem builderCalls_lossless (h : t.WellFormed) (hlength : t.length = (Text.toBytes s).size)
    (hcut : t.top.OnBoundaries (Text.toBytes s)) :
    BuilderCall.spelled (t.builderCalls (Text.toBytes s)) = s ∧
    (∃ inner, t.builderCalls (Text.toBytes s) = .start t.type.id :: (inner ++ [.finish]) ∧
      BuilderCall.Balanced inner) ∧
    BuilderCall.Balanced (t.builderCalls (Text.toBytes s)) ∧
    t.builderCalls (Text.toBytes s) = (t.tokenTree (Text.toBytes s)).calls := by
  have hcalls := t.builderCalls_eq (Text.toBytes s)
  refine ⟨?_, ⟨_, rfl, ?_⟩, ?_, hcalls⟩
  · rw [hcalls, TokenTree.spelled_calls, text_tokenTree h hlength hcut]
  · rw [← Node.callsAll_tokensF]
    exact TokenTree.balanced_callsAll _
  · rw [hcalls]
    exact TokenTree.balanced_calls _

/-- A node in a buffer with one inside of it, a leaf in an anonymous branch, and text behind. -/
def accentTree : Tree :=
  .branch none { epoch := 1, id := 1, name := "Top", isTop := true }
    [(0, .packed { slots := #[3, 0, 3, 8, 4, 0, 2, 8], length := 3, set := mixedSet }),
      (3, .branch none { epoch := 1, id := 2, name := "" }
        [(1, .branch none { epoch := 1, id := 5, name := "C" } [] 3 [])] 5 [])] 10 []

/-- Characters of one, two and three bytes, in nodes and between them. -/
theorem builderCalls_lossless_accents :
    accentTree.WellFormed ∧ accentTree.top.OnBoundaries (Text.toBytes "äx-→ ß") ∧
    (accentTree.tokenTree (Text.toBytes "äx-→ ß")).rows =
      [(0, 1, none), (1, 3, none), (2, 4, some "ä"), (2, gapKind, some "x"),
        (1, gapKind, some "-"), (1, 5, some "→"), (1, gapKind, some " ß")] ∧
    BuilderCall.spelled (accentTree.builderCalls (Text.toBytes "äx-→ ß")) = "äx-→ ß" ∧
    BuilderCall.Balanced (accentTree.builderCalls (Text.toBytes "äx-→ ß")) := by
  have hformed : accentTree.WellFormed := by decide
  have hlength : accentTree.length = (Text.toBytes "äx-→ ß").size := by decide +kernel
  have hcut : accentTree.top.OnBoundaries (Text.toBytes "äx-→ ß") :=
    .of_check 4 (by decide +kernel)
  obtain ⟨hspelled, -, hbalanced, -⟩ := builderCalls_lossless hformed hlength hcut
  exact ⟨hformed, hcut, by decide +kernel, hspelled, hbalanced⟩

end Tree

end IncrementalLR
