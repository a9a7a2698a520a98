/-
**Reading bytes as text.**

Documents are byte sequences; where a piece of one is shown as text it may begin or end in the
middle of a character, or may not be valid at all.  Reading never fails: each maximal part that
starts a character without completing it, and each byte that starts none, is read as one
replacement character.

The reader goes byte by byte.  `Pending` is what it knows inside a character: how many bytes are
still owed, between which bounds the next one has to lie, and the bits collected so far.

Main definitions:

* `Text.Pending`, `Text.Lead`, `Text.lead` — the state inside a character and the effect of a
  character's first byte;
* `Text.decodeFrom`, `Text.ofBytes` — reading from a state, and reading from the start;
* `Text.isContinuation`, `Text.isBoundary` — where characters start.
-/

set_option relaxedAutoImplicit false
set_option autoImplicit false

namespace IncrementalLR

namespace Text

/-! ### Character boundaries -/

/-- Whether a byte continues a character rather than starting one. -/
def isContinuation (b : UInt8) : Bool := 0x80 ≤ b.toNat && b.toNat ≤ 0xbf

/-- Whether a character of valid text can start at index `i`; the end counts as well. -/
def isBoundary (bytes : Array UInt8) (i : Nat) : Bool :=
  match bytes[i]? with
  | some b => i = 0 || !isContinuation b
  | none => i = bytes.size

/-! ### Reading -/

/-- The replacement character. -/
def replacement : Char := Char.ofNat 0xfffd

/-- The state inside a character: `owed` further bytes, the next between `lo` and `hi`. -/
structure Pending where
  owed : Nat
  lo : Nat
  hi : Nat
  value : Nat
deriving Repr, DecidableEq

/-- What a byte does where a character may start. -/
inductive Lead where
  | char (c : Char)
  | pending (p : Pending)
  | invalid

/-- The effect of a byte where a character may start.  The bounds of the second byte leave out
overlong forms, surrogates and what lies beyond the last code point. -/
def lead (b : UInt8) : Lead :=
  let n := b.toNat
  if n < 0x80 then .char (Char.ofNat n)
  else if n < 0xc2 then .invalid
  else if n < 0xe0 then .pending ⟨1, 0x80, 0xbf, n - 0xc0⟩
  else if n < 0xf0 then
    .pending ⟨2, if n = 0xe0 then 0xa0 else 0x80, if n = 0xed then 0x9f else 0xbf, n - 0xe0⟩
  else if n < 0xf5 then
    .pending ⟨3, if n = 0xf0 then 0x90 else 0x80, if n = 0xf4 then 0x8f else 0xbf, n - 0xf0⟩
  else .invalid

/-- The state after a further byte, or the character that it completes. -/
def Pending.next (p : Pending) (b : UInt8) : Lead :=
  let value := p.value * 64 + b.toNat % 64
  if p.owed ≤ 1 then .char (Char.ofNat value) else .pending ⟨p.owed - 1, 0x80, 0xbf, value⟩

/-- The characters of the bytes, read from inside or between characters. -/
def decodeFrom : Option Pending → List UInt8 → List Char
  | none, [] => []
  | some _, [] => [replacement]
  | none, b :: rest =>
      match lead b with
      | .char c => c :: decodeFrom none rest
      | .pending p => decodeFrom (some p) rest
      | .invalid => replacement :: decodeFrom none rest
  | some p, b :: rest =>
      if p.lo ≤ b.toNat ∧ b.toNat ≤ p.hi then
        match p.next b with
        | .char c => c :: decodeFrom none rest
        | .pending q => decodeFrom (some q) rest
        | .invalid => replacement :: decodeFrom none rest
      else
        match lead b with
        | .char c => replacement :: c :: decodeFrom none rest
        | .pending q => replacement :: decodeFrom (some q) rest
        | .invalid => replacement :: replacement :: decodeFrom none rest

/-- The text of a byte sequence. -/
def ofBytes (bytes : List UInt8) : String := String.ofList (decodeFrom none bytes)

/-- The bytes of a text. -/
def toBytes (s : String) : Array UInt8 := s.toUTF8.data

/-- The text of the bytes from `start` to `stop`, both cut to what is there. -/
def ofSlice (bytes : Array UInt8) (start stop : Nat) : String :=
  ofBytes (bytes.extract start stop).toList

end Text

end IncrementalLR
