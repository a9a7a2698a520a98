/-
**Quoted texts.**

A quoted text stands between double quotes.  A backslash goes before quotes and backslashes,
line end, carriage return, tabulator and the null character have letters of their own, and every
other character that is not printable is written by its code point in hexadecimal digits.

Main definitions:

* `Text.hex` — the hexadecimal digits of a number, in lower case and without padding;
* `Text.escapeChar` — a character as it stands between quotes;
* `Text.quote` — the quoted text.
-/

import IncrementalLR.Text.Printable

set_option relaxedAutoImplicit false
set_option autoImplicit false

namespace IncrementalLR

namespace Text

/-- The hexadecimal digits of a number, without leading zeros. -/
def hex (n : Nat) : List Char := Nat.toDigits 16 n

/-- A character as it stands between double quotes.  A single quote needs no escape there. -/
def escapeChar (c : Char) : List Char :=
  match c with
  | '"' => ['\\', '"']
  | '\\' => ['\\', '\\']
  | '\n' => ['\\', 'n']
  | '\r' => ['\\', 'r']
  | '\t' => ['\\', 't']
  | '\x00' => ['\\', '0']
  | c => if isPrintable c then [c] else '\\' :: 'u' :: '\x7b' :: (hex c.toNat ++ ['\x7d'])

/-- A text between double quotes. -/
def quote (s : String) : String :=
  String.ofList ('"' :: (s.toList.flatMap escapeChar ++ ['"']))

end Text

end IncrementalLR
