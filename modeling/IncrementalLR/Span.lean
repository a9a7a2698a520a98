/-
**Positions, ranges and edits.**

Every position is a byte offset into a document, a number of 64 bits.  Where positions are moved
by offsets that may be negative they are read as signed numbers, so that the upper half of the
positions stands for the negative ones.  A `Span` is a half-open range of offsets, and a `Change`
says which range of an old document was replaced by which range of a new one.

Main definitions:

* `maxPos`, `signedPos`, `posOfSigned` — the largest position, and positions as signed numbers;
* `Span`, `Span.length`, `Span.isEmpty` — ranges;
* `Change`, `Change.replace` — edits;
* `textRange`, `Span.textRange` — a range in 32 bits, whose ends stop at the largest number.

Main results:

* `signedPos_of_lt`, `posOfSigned_signedPos` — a position in the lower half is its own signed
  number, and every position is found again from its signed number;
* `textRange_le` — a range in 32 bits never ends before it starts.
-/

set_option relaxedAutoImplicit false
set_option autoImplicit false

namespace IncrementalLR

/-- The largest number of 32 bits. -/
def maxWord : Nat := 4294967295

/-! ### Positions as signed numbers -/

/-- The largest position. -/
def maxPos : Nat := 18446744073709551615

/-- A position read as a signed number of 64 bits. -/
def signedPos (pos : Nat) : Int :=
  if pos ≤ 9223372036854775807 then pos else pos - 18446744073709551616

/-- The position that a signed number of 64 bits is read as. -/
def posOfSigned (n : Int) : Nat :=
  if 0 ≤ n then n.toNat else (n + 18446744073709551616).toNat

theorem signedPos_of_lt {pos : Nat} (h : pos < 9223372036854775808) : signedPos pos = pos := by
  unfold signedPos
  split
  · rfl
  · omega

@[simp] theorem signedPos_zero : signedPos 0 = 0 := rfl

theorem posOfSigned_signedPos {pos : Nat} (h : pos ≤ maxPos) :
    posOfSigned (signedPos pos) = pos := by
  unfold maxPos at h
  unfold signedPos posOfSigned
  split <;> split <;> omega

theorem signedPos_inj {a b : Nat} (ha : a ≤ maxPos) (hb : b ≤ maxPos) :
    signedPos a = signedPos b ↔ a = b := by
  constructor
  · intro h
    rw [← posOfSigned_signedPos ha, h, posOfSigned_signedPos hb]
  · rintro rfl
    rfl

/-! ### Ranges -/

/-- The half-open range from `start` to `stop`. -/
structure Span where
  start : Nat
  stop : Nat
deriving Repr, DecidableEq, Inhabited

namespace Span

/-- The number of bytes; a range that ends before it starts has none. -/
def length (s : Span) : Nat := s.stop - s.start

/-- Whether no byte lies inside. -/
def isEmpty (s : Span) : Bool := s.stop ≤ s.start

end Span

/-! ### Edits -/

/-- The replacement of `oldStart..oldStop` of one document by `newStart..newStop` of the next. -/
structure Change where
  oldStart : Nat
  oldStop : Nat
  newStart : Nat
  newStop : Nat
deriving Repr, DecidableEq, Inhabited

/-- Replaces a range by `inserted` bytes. -/
def Change.replace (start stop inserted : Nat) : Change := ⟨start, stop, start, start + inserted⟩

/-! ### Ranges in 32 bits -/

/-- A range in 32 bits: both ends stop at the largest number, and an end before the start is moved
to it. -/
def textRange (start stop : Nat) : Nat × Nat := (min start maxWord, min (max stop start) maxWord)

/-- The range in 32 bits. -/
def Span.textRange (s : Span) : Nat × Nat := IncrementalLR.textRange s.start s.stop

theorem textRange_le (start stop : Nat) : (textRange start stop).1 ≤ (textRange start stop).2 := by
  simp only [textRange]
  omega

end IncrementalLR
