/-
**Parse actions and their code words.**

What a parser does with a token is written as a word of 32 bits.  A word without the reduce bit is a
shift: its number is the state to go to, one bit marks a step that consumes no input, and another a
skipped token that changes no state.  A word with the reduce bit has the reduced term in its low
half and the number of popped symbols in its upper bits; here the same two bits mark a repetition
that still gets a node, and a return to the state below what was popped.

Main definitions:

* `Action`, `Action.code` — actions and their words;
* `ActionWord.isReduce`, `ActionWord.value`, `ActionWord.depth`, … — the parts of a word.

Main results:

* `Action.isReduce_code_reduce`, `Action.value_code_reduce`, `Action.depth_code_reduce` — the parts
  of the word of a reduction.
-/

set_option relaxedAutoImplicit false
set_option autoImplicit false

namespace IncrementalLR

/-- A parse action. -/
inductive Action where
  /-- Consumes the token and goes to a state. -/
  | shift (state : Nat)
  /-- Goes to a state and consumes nothing. -/
  | goto (state : Nat)
  /-- Consumes a skipped token and stays. -/
  | skip
  /-- Pops symbols and reduces them to a term. -/
  | reduce (term depth : Nat)
  /-- Reduces to the term of a repetition that still gets a node. -/
  | reduceRepeat (term depth : Nat)
  /-- Pops one symbol more and returns to the state below. -/
  | reduceStay (term depth : Nat)
deriving Repr, DecidableEq

namespace ActionWord

/-- The bit of reductions. -/
def reduceBit : Nat := 16

/-- The bit of repetitions that get a node, and of shifts that consume nothing. -/
def repeatBit : Nat := 17

/-- The bit of reductions that return to the state below, and of skipped tokens. -/
def stayBit : Nat := 18

/-- Whether a word is a reduction. -/
def isReduce (w : Nat) : Bool := w.testBit reduceBit

/-- Whether a reduction to the term of a repetition gets a node. -/
def isRepeat (w : Nat) : Bool := w.testBit repeatBit

/-- Whether a shift consumes nothing. -/
def isGoto (w : Nat) : Bool := w.testBit repeatBit

/-- Whether a reduction returns to the state below, or a shift skips its token. -/
def isStay (w : Nat) : Bool := w.testBit stayBit

/-- The low half: the reduced term, or a state. -/
def value (w : Nat) : Nat := w % 65536

/-- The number of symbols that a reduction pops. -/
def depth (w : Nat) : Nat := w / 524288

/-- The word of a plain reduction. -/
def reduction (term depth : Nat) : Nat := 65536 + term % 65536 + depth * 524288 % 4294967296

end ActionWord

namespace Action

/-- The word of an action. -/
def code : Action → Nat
  | shift state => state
  | goto state => state ||| 131072
  | skip => 262144
  | reduce term depth => ActionWord.reduction term depth
  | reduceRepeat term depth => ActionWord.reduction term depth + 131072
  | reduceStay term depth => ActionWord.reduction term depth + 262144

theorem isReduce_code_reduce (term depth : Nat) :
    ActionWord.isReduce (reduce term depth).code = true := by
  simp only [ActionWord.isReduce, ActionWord.reduceBit, code, ActionWord.reduction,
    Nat.testBit_eq_decide_div_mod_eq]
  simp only [decide_eq_true_eq]
  omega

theorem value_code_reduce {term : Nat} (depth : Nat) (h : term < 65536) :
    ActionWord.value (reduce term depth).code = term := by
  simp only [ActionWord.value, code, ActionWord.reduction]
  omega

theorem depth_code_reduce (term : Nat) {depth : Nat} (h : depth < 8192) :
    ActionWord.depth (reduce term depth).code = depth := by
  simp only [ActionWord.depth, code, ActionWord.reduction]
  omega

end Action

end IncrementalLR
