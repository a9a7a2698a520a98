/-
**The text form of tables.**

A table of numbers is written as one text of printable characters: first the number of values, then
the values, each as digits of base 46 with the most significant digit first.  The last digit of a
value is raised by 46, which marks its end, and the value 65535 has a character of its own.  The
digits are the characters from the space on, without the double quote and the backslash, so that
the text can stand between quotes as it is.

Main definitions:

* `Codec.digitCode`, `Codec.digitOf?` — characters of digits;
* `Codec.valueCodes`, `Codec.encode` — writing;
* `Codec.values`, `Codec.decode`, `Codec.decodeNarrow` — reading.

Main results:

* `Codec.digitOf?_digitCode` — a written digit is read back.
-/

import IncrementalLR.Error
import IncrementalLR.Span
import IncrementalLR.Text.Utf8

set_option relaxedAutoImplicit false
set_option autoImplicit false

namespace IncrementalLR

namespace Codec

/-! ### Digits -/

/-- The base of the digits. -/
def base : Nat := 46

/-- The value that has a character of its own. -/
def bigValue : Nat := 65535

/-- The character of that value. -/
def bigCode : Nat := 126

/-- The character of a digit below 92: the space and what follows, two characters left out. -/
def digitCode (d : Nat) : Nat :=
  let c := d + 32
  let c := if 34 ≤ c then c + 1 else c
  if 92 ≤ c then c + 1 else c

/-- The digit of a character, if it is not below the space. -/
def digitOf? (code : Nat) : Option Nat :=
  let c := if 92 ≤ code then code - 1 else code
  let c := if 34 ≤ c then c - 1 else c
  if 32 ≤ c then some (c - 32) else none

theorem digitOf?_digitCode (d : Nat) : digitOf? (digitCode d) = some d := by
  simp only [digitOf?, digitCode]
  grind

/-! ### Writing -/

/-- The digits of a number in front of `rest`, most significant first. -/
def digitsF : Nat → Nat → List Nat → List Nat
  | 0, _, rest => rest
  | fuel + 1, n, rest =>
      if n / base = 0 then n % base :: rest else digitsF fuel (n / base) (n % base :: rest)

/-- The digits of a number, most significant first. -/
def digits (n : Nat) : List Nat := digitsF (n + 1) n []

/-- The characters of digits; the last digit is raised by the base. -/
def closeDigits : List Nat → List Nat
  | [] => []
  | [d] => [digitCode (d + base)]
  | d :: rest => digitCode d :: closeDigits rest

/-- The characters of a value. -/
def valueCodes (n : Nat) : List Nat := if n = bigValue then [bigCode] else closeDigits (digits n)

/-- The characters of a table: the number of values, then the values. -/
def tableCodes (values : List Nat) : List Nat :=
  valueCodes (values.length % 4294967296) ++ values.flatMap valueCodes

/-- The text of a table. -/
def encode (values : List Nat) : String := String.ofList ((tableCodes values).map Char.ofNat)

/-! ### Reading -/

/-- The values of characters that begin at place `pos`.  `sofar` holds the number read so far
of a value that is not closed yet. -/
def values : Nat → Option Nat → List Nat → Except EncodingFault (List Nat)
  | _, none, [] => .ok []
  | pos, some _, [] => .error (.unterminated pos)
  | pos, sofar, code :: rest =>
      if code = bigCode then (bigValue :: ·) <$> values (pos + 1) none rest
      else
        match digitOf? code with
        | none => .error (.invalidCharacter code pos)
        | some d =>
            let digit := if base ≤ d then d - base else d
            let n := sofar.getD 0 * base + digit
            if maxWord < n then .error .outOfRange
            else if base ≤ d then (n :: ·) <$> values (pos + 1) none rest
            else values (pos + 1) (some n) rest

/-- The table that characters stand for: the first value has to be the number of the others. -/
def decodeCodes (codes : List Nat) : Except EncodingFault (List Nat) :=
  match values 0 none codes with
  | .error fault => .error fault
  | .ok [] => .ok []
  | .ok (count :: rest) =>
      if rest.length = count then .ok rest else .error (.wrongCount count rest.length)

/-- The table that a text stands for. -/
def decode (s : String) : Except EncodingFault (List Nat) :=
  decodeCodes ((Text.toBytes s).toList.map (·.toNat))

/-- Values of at most 16 bits. -/
def narrow : List Nat → Except EncodingFault (List Nat)
  | [] => .ok []
  | n :: rest => if bigValue < n then .error (.tooWide n) else (n :: ·) <$> narrow rest

/-- The table of 16-bit values that a text stands for. -/
def decodeNarrow (s : String) : Except EncodingFault (List Nat) := decode s >>= narrow

end Codec

end IncrementalLR
