/-
**What tokenizers do.**

A tokenizer reads from the stream through a handful of operations and accepts at most one token.
`Scan` is the tree of everything that it may do: each operation is followed by what happens next,
depending on its answer.  Since a tokenizer has no other access to the stream, what it observes and
how it accepts can be read off this tree.

A tokenizer of the host may also hand out an error of its own, which ends the step of the parse, and
write lines, which are collected.

Main definitions:

* `Scan`, `Scan.run` — what a tokenizer does, and doing it;
* `Scan.OnlyAccepts` — a tokenizer that fixes the end of a token by an offset only;
* `Scan.MayFail` — the failures that a tokenizer hands out itself.
-/

import IncrementalLR.Input.Stream

set_option relaxedAutoImplicit false
set_option autoImplicit false

namespace IncrementalLR

/-- Everything that a tokenizer may do. -/
inductive Scan where
  /-- Stops. -/
  | done
  /-- Stops with a failure of its own. -/
  | fail (e : Failure)
  /-- Looks at the byte at the position. -/
  | next (k : Option UInt8 → Scan)
  /-- Asks for the start of the token, the position and the end of the input. -/
  | place (k : Nat → Nat → Nat → Scan)
  /-- Looks at the byte at an offset. -/
  | peek (offset : Int) (k : Option UInt8 → Scan)
  /-- Moves on. -/
  | advance (n : Nat) (k : Scan)
  /-- Moves on while the byte lies between two codes, -1 standing for the end. -/
  | skipWhile (lo hi : Int) (k : Scan)
  /-- Reads the text between two positions. -/
  | read (start stop : Nat) (k : String → Scan)
  /-- Accepts a token that ends at an offset from the position. -/
  | accept (term : Nat) (offset : Int) (k : Scan)
  /-- Accepts a token that ends at a position. -/
  | acceptTo (term stop : Nat) (k : Scan)
  /-- Writes a line. -/
  | write (line : String) (k : Scan)

namespace Scan

/-- Does what a scan says.  The lines that are written are collected newest first; they are kept
when the scan fails. -/
def run : Scan → Stream → List String → Except Failure Stream × List String
  | done, s, lines => (.ok s, lines)
  | fail e, _, lines => (.error e, lines)
  | next k, s, lines => (k s.next).run s lines
  | place k, s, lines => (k s.tokenStart s.pos s.stop).run s lines
  | peek offset k, s, lines => (k (s.peek offset).1).run (s.peek offset).2 lines
  | advance n k, s, lines => k.run (s.advance n) lines
  | skipWhile lo hi k, s, lines => k.run (s.skipWhile lo hi) lines
  | read start stop k, s, lines => (k (s.read start stop)).run s lines
  | accept term offset k, s, lines =>
      match s.accept term offset with
      | .ok s => k.run s lines
      | .error e => (.error (.error e), lines)
  | acceptTo term stop k, s, lines => k.run (s.acceptTo term stop) lines
  | write line k, s, lines => k.run s (line :: lines)

/-- A scan that fixes the end of a token by an offset from the position only. -/
def OnlyAccepts : Scan → Prop
  | done => True
  | fail _ => True
  | next k => ∀ b, (k b).OnlyAccepts
  | place k => ∀ a b c, (k a b c).OnlyAccepts
  | peek _ k => ∀ b, (k b).OnlyAccepts
  | advance _ k => k.OnlyAccepts
  | skipWhile _ _ k => k.OnlyAccepts
  | read _ _ k => ∀ s, (k s).OnlyAccepts
  | accept _ _ k => k.OnlyAccepts
  | acceptTo .. => False
  | write _ k => k.OnlyAccepts

/-- Whether a scan may hand out a failure of its own, depending on what it is answered. -/
def MayFail (e : Failure) : Scan → Prop
  | done => False
  | fail e' => e = e'
  | next k => ∃ b, (k b).MayFail e
  | place k => ∃ a b c, (k a b c).MayFail e
  | peek _ k => ∃ b, (k b).MayFail e
  | advance _ k => k.MayFail e
  | skipWhile _ _ k => k.MayFail e
  | read _ _ k => ∃ s, (k s).MayFail e
  | accept _ _ k => k.MayFail e
  | acceptTo _ _ k => k.MayFail e
  | write _ k => k.MayFail e

/-- A scan fails with a failure of its own, or with a token that ends out of bounds. -/
theorem run_error (k : Scan) {s : Stream} {lines : List String} {e : Failure}
    (h : (k.run s lines).1 = .error e) :
    k.MayFail e ∨ ∃ start stop, e = .error (.tokenOutOfBounds start stop) := by
  induction k generalizing s lines with
  | done => cases h
  | fail e' => exact Or.inl (Except.error.inj h).symm
  | next k ih => exact (ih _ h).imp_left fun hk => ⟨_, hk⟩
  | place k ih => exact (ih _ _ _ h).imp_left fun hk => ⟨_, _, _, hk⟩
  | peek offset k ih => exact (ih _ h).imp_left fun hk => ⟨_, hk⟩
  | advance n k ih => exact ih h
  | skipWhile lo hi k ih => exact ih h
  | read start stop k ih => exact (ih _ h).imp_left fun hk => ⟨_, hk⟩
  | accept term offset k ih =>
      rw [run] at h
      split at h
      · exact ih h
      · rename_i hrefused
        obtain rfl := Except.error.inj h
        obtain ⟨start, stop, rfl⟩ := Stream.accept_error hrefused
        exact Or.inr ⟨start, stop, rfl⟩
  | acceptTo term stop k ih => exact ih h
  | write line k ih => exact ih h

end Scan

end IncrementalLR
